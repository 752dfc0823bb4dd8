import Mathlib.Data.List.Sort
import Mathlib.Logic.Equiv.Nat
import Walgit.Snapshots
import Walgit.Utf8
import Walgit.Wire

/-!
# Stored snapshots

A snapshot is stored under the hash of its bytes. Before it is encoded its refs are sorted and
its creation time is left out, so one state of the refs has one key.
-/
namespace Walgit

open Text

/-- A `RefSnapshot` with the fields its validity does not depend on. -/
structure StoredSnapshot extends RefSnapshot where
  seq : ℕ
  createdAt : Option Timestamp
  deriving DecidableEq, Repr

/-- `hex::encode`. -/
def hexEncode (bytes : List UInt8) : List Char :=
  bytes.flatMap fun b => [Nat.digitChar (b.toNat / 16), Nat.digitChar (b.toNat % 16)]

namespace Snapshot

def sortRefs (refs : List Ref) : List Ref := refs.insertionSort fun a b => a.name ≤ b.name

section Canonical

variable [CharTables]

/-- Sorts the refs and omits the creation time. -/
def canonicalize (s : StoredSnapshot) : Except String StoredSnapshot := do
  validate s.toRefSnapshot
  .ok { s with refs := sortRefs s.refs, createdAt := none }

variable (codec : Wire.Codec StoredSnapshot String) (digest : List UInt8 → List UInt8)

def encode (s : StoredSnapshot) : Except String (List UInt8) := do
  .ok (codec.encode (← canonicalize s))

def key (bytes : List UInt8) : String :=
  "checkpoints/refs/" ++ String.ofList (hexEncode (digest bytes)) ++ ".pb"

/-- Verifies the exact encoding as well as the key. -/
def decodeVerified (expectedKey : String) (bytes : List UInt8) :
    Except String StoredSnapshot := do
  if key digest bytes ≠ expectedKey then throw "snapshot content key mismatch"
  let snapshot ← codec.decode bytes
  if (← encode codec snapshot) ≠ bytes then throw "snapshot encoding is not canonical"
  .ok snapshot

/-- The same refs in any order, under the same HEAD, format and sequence number. -/
structure SameState (s s' : StoredSnapshot) : Prop where
  seq : s.seq = s'.seq
  objectFormat : s.objectFormat = s'.objectFormat
  headTarget : s.headTarget = s'.headTarget
  refs : s.refs.Perm s'.refs

omit [CharTables] in
theorem sortRefs_perm (refs : List Ref) : (sortRefs refs).Perm refs := List.perm_insertionSort _ _

omit [CharTables] in
/-- Refs of distinct names have one order. -/
theorem sortRefs_eq {refs refs' : List Ref} (h : refs.Perm refs')
    (hnodup : (refs.map Ref.name).Nodup) : sortRefs refs = sortRefs refs' := by
  have hperm : (sortRefs refs).Perm (sortRefs refs') :=
    (sortRefs_perm refs).trans (h.trans (sortRefs_perm refs').symm)
  refine hperm.eq_of_pairwise (fun a b ha hb hab hba => ?_)
    (List.pairwise_insertionSort _ _) (List.pairwise_insertionSort _ _)
  have hamem : a ∈ refs := (sortRefs_perm refs).mem_iff.mp ha
  have hbmem : b ∈ refs := h.mem_iff.mpr ((sortRefs_perm refs').mem_iff.mp hb)
  exact List.inj_on_of_nodup_map hnodup hamem hbmem (le_antisymm hab hba)

theorem validate_ok {s : RefSnapshot} : validate s = .ok () ↔
    ∃ format : ObjectFormat, s.objectFormat = format.text ∧
      (s.headTarget = "" ∨ validRef s.headTarget = true) ∧
      validateRefs format.oidLen [] s.refs = .ok () := by
  have hguard : ∀ format : ObjectFormat,
      (if !(s.headTarget = "" || validRef s.headTarget) then
          throw "invalid snapshot symbolic HEAD"
        else validateRefs format.oidLen [] s.refs) = .ok () ↔
      (s.headTarget = "" ∨ validRef s.headTarget = true) ∧
        validateRefs format.oidLen [] s.refs = .ok () := by
    intro format
    rw [Checks.last_ok]
    simp [or_iff_not_imp_left]
  unfold validate
  dsimp only
  split
  · rename_i hformat
    refine (hguard .sha1).trans ⟨fun h => ⟨.sha1, hformat, h⟩, fun ⟨f, hf, h⟩ => ?_⟩
    cases f with
    | sha1 => exact h
    | sha256 => exact absurd (hformat.symm.trans hf) (by decide)
  · rename_i hformat
    refine (hguard .sha256).trans ⟨fun h => ⟨.sha256, hformat, h⟩, fun ⟨f, hf, h⟩ => ?_⟩
    cases f with
    | sha1 => exact absurd (hformat.symm.trans hf) (by decide)
    | sha256 => exact h
  · rename_i hsha1 hsha256
    refine iff_of_false (by simp) ?_
    rintro ⟨f, hf, -⟩
    cases f with
    | sha1 => exact hsha1 hf
    | sha256 => exact hsha256 hf

omit [CharTables] in
theorem SameState.symm {s s' : StoredSnapshot} (h : SameState s s') : SameState s' s :=
  ⟨h.seq.symm, h.objectFormat.symm, h.headTarget.symm, h.refs.symm⟩

omit [CharTables] in
theorem SameState.trans {s s' s'' : StoredSnapshot} (h : SameState s s') (h' : SameState s' s'') :
    SameState s s'' :=
  ⟨h.seq.trans h'.seq, h.objectFormat.trans h'.objectFormat, h.headTarget.trans h'.headTarget,
    h.refs.trans h'.refs⟩

theorem SameState.validate {s s' : StoredSnapshot} (h : SameState s s') :
    validate s.toRefSnapshot = .ok () ↔ Snapshot.validate s'.toRefSnapshot = .ok () := by
  simp only [validate_ok, validateRefs_ok, h.objectFormat, h.headTarget, h.refs.mem_iff,
    (h.refs.map Ref.name).nodup_iff]

theorem nodup_of_validate {s : RefSnapshot} (h : validate s = .ok ()) :
    (s.refs.map Ref.name).Nodup := by
  obtain ⟨format, -, -, hrefs⟩ := validate_ok.mp h
  exact (validateRefs_ok.mp hrefs).1

theorem canonicalize_ok {s c : StoredSnapshot} : canonicalize s = .ok c ↔
    validate s.toRefSnapshot = .ok () ∧
      c = { s with refs := sortRefs s.refs, createdAt := none } := by
  rw [canonicalize, Checks.check_ok, Except.ok.injEq, eq_comm (b := c)]

/-- The canonical form is of the same state. -/
theorem sameState_canonicalize {s c : StoredSnapshot} (h : canonicalize s = .ok c) :
    SameState c s := by
  obtain ⟨-, rfl⟩ := canonicalize_ok.mp h
  exact ⟨rfl, rfl, rfl, sortRefs_perm s.refs⟩

/-- One state has one canonical form. -/
theorem SameState.canonicalize {s s' c : StoredSnapshot} (h : SameState s s')
    (hc : Snapshot.canonicalize s' = .ok c) : Snapshot.canonicalize s = .ok c := by
  obtain ⟨hvalid, rfl⟩ := canonicalize_ok.mp hc
  have hvalid' := h.validate.mpr hvalid
  refine canonicalize_ok.mpr ⟨hvalid', ?_⟩
  rw [sortRefs_eq h.refs (nodup_of_validate hvalid'), h.seq, h.objectFormat, h.headTarget]

theorem canonicalize_idem {s c : StoredSnapshot} (h : canonicalize s = .ok c) :
    canonicalize c = .ok c := (sameState_canonicalize h).canonicalize h

variable {codec digest}

theorem encode_ok {s : StoredSnapshot} {bytes : List UInt8} : encode codec s = .ok bytes ↔
    ∃ c, canonicalize s = .ok c ∧ codec.encode c = bytes := by
  rw [encode, Checks.bind_eq_ok]
  simp only [Except.ok.injEq]

theorem decodeVerified_ok {expectedKey : String} {bytes : List UInt8} {r : StoredSnapshot} :
    decodeVerified codec digest expectedKey bytes = .ok r ↔
      key digest bytes = expectedKey ∧
        ∃ s, encode codec s = .ok bytes ∧ canonicalize s = .ok r := by
  have hunfold : decodeVerified codec digest expectedKey bytes = .ok r ↔
      key digest bytes = expectedKey ∧ codec.decode bytes = .ok r ∧
        encode codec r = .ok bytes := by
    simp only [decodeVerified, Checks.guard_ok, Checks.bind_eq_ok, ne_eq, not_not,
      Except.ok.injEq]
    constructor
    · rintro ⟨hkey, snapshot, hdecode, encoded, hencode, rfl, rfl⟩
      exact ⟨hkey, hdecode, hencode⟩
    · rintro ⟨hkey, hdecode, hencode⟩
      exact ⟨hkey, r, hdecode, bytes, hencode, rfl, rfl⟩
  rw [hunfold]
  refine and_congr_right fun _ => ⟨?_, ?_⟩
  · rintro ⟨hdecode, hencode⟩
    obtain ⟨c, hc, rfl⟩ := encode_ok.mp hencode
    rw [codec.decode_encode, Except.ok.injEq] at hdecode
    exact ⟨r, hencode, hdecode ▸ hc⟩
  · rintro ⟨s, hencode, hr⟩
    obtain ⟨c, hc, rfl⟩ := encode_ok.mp hencode
    obtain rfl : c = r := Except.ok.inj (hc.symm.trans hr)
    exact ⟨codec.decode_encode c, encode_ok.mpr ⟨c, canonicalize_idem hc, rfl⟩⟩

section Hex

omit [CharTables]

theorem digitChar_inj {m n : ℕ} (hm : m < 16) (hn : n < 16)
    (h : Nat.digitChar m = Nat.digitChar n) : m = n := by
  have hall : ∀ i j : Fin 16, Nat.digitChar i = Nat.digitChar j → i = j := by decide
  exact Fin.mk.inj (hall ⟨m, hm⟩ ⟨n, hn⟩ h)

theorem hexEncode_injective : Function.Injective hexEncode := by
  intro bytes
  induction bytes with
  | nil =>
    rintro (_ | ⟨b, bytes⟩) h
    · rfl
    · cases h
  | cons b bytes ih =>
    rintro (_ | ⟨b', bytes'⟩) h
    · cases h
    · simp only [hexEncode, List.flatMap_cons, List.cons_append, List.nil_append,
        List.cons.injEq] at h
      obtain ⟨hhigh, hlow, hrest⟩ := h
      have hb := b.toNat_lt
      have hb' := b'.toNat_lt
      have hdiv := digitChar_inj (by omega) (by omega) hhigh
      have hmod := digitChar_inj (by omega) (by omega) hlow
      rw [ih hrest, UInt8.toNat_inj.mp (by omega : b.toNat = b'.toNat)]

theorem key_injective (h : Function.Injective digest) : Function.Injective (key digest) := by
  intro bytes bytes' hkey
  unfold key at hkey
  rw [String.append_left_inj, String.append_right_inj, String.ofList_inj] at hkey
  exact h (hexEncode_injective hkey)

end Hex

/-- A state of the refs has one encoding and one key, whatever their order and the creation time.
What is read under a key is exactly a canonical encoding with that key, and its state is
returned. -/
theorem snapshots_canonical (hdigest : Function.Injective digest) :
    (∀ s, validate s.toRefSnapshot = .ok () → ∃ bytes, encode codec s = .ok bytes ∧
      ∀ s', encode codec s' = .ok bytes ↔ SameState s' s) ∧
    (∀ expectedKey bytes r, decodeVerified codec digest expectedKey bytes = .ok r ↔
      key digest bytes = expectedKey ∧
        ∃ s, encode codec s = .ok bytes ∧ canonicalize s = .ok r ∧ SameState r s) ∧
    ∀ s bytes, encode codec s = .ok bytes →
      ∀ bytes', (∃ r, decodeVerified codec digest (key digest bytes) bytes' = .ok r) ↔
        bytes' = bytes := by
  refine ⟨fun s hs => ?_, fun expectedKey bytes r => ?_, fun s bytes hencode bytes' => ?_⟩
  · have hc := canonicalize_ok.mpr ⟨hs, rfl⟩
    refine ⟨_, encode_ok.mpr ⟨_, hc, rfl⟩, fun s' => ⟨fun hs' => ?_, fun hsame => ?_⟩⟩
    · obtain ⟨c', hc', hbytes⟩ := encode_ok.mp hs'
      have heq := congrArg codec.decode hbytes
      rw [codec.decode_encode, codec.decode_encode, Except.ok.injEq] at heq
      subst heq
      exact (sameState_canonicalize hc').symm.trans (sameState_canonicalize hc)
    · exact encode_ok.mpr ⟨_, hsame.canonicalize hc, rfl⟩
  · rw [decodeVerified_ok]
    refine and_congr_right fun _ => exists_congr fun s => and_congr_right fun _ => ?_
    exact ⟨fun hr => ⟨hr, sameState_canonicalize hr⟩, And.left⟩
  · constructor
    · rintro ⟨r, hr⟩
      exact key_injective hdigest (decodeVerified_ok.mp hr).1
    · rintro rfl
      obtain ⟨c, hc, -⟩ := encode_ok.mp hencode
      exact ⟨c, decodeVerified_ok.mpr ⟨rfl, s, hencode, hc⟩⟩

end Canonical

section Wire

def textScalar : Wire.Scalar String :=
  Wire.Scalar.bytes.via (fun b => String.ofList (Utf8.decode b)) (fun s => Utf8.encode s.toList)
    fun s => by rw [Utf8.decode_encode, String.ofList_toList]

def intScalar : Wire.Scalar ℤ :=
  Wire.Scalar.nat.via Equiv.intEquivNat.symm Equiv.intEquivNat fun z =>
    Equiv.intEquivNat.symm_apply_apply z

def refFields : Wire.Fields Ref 10 26 :=
  ((Wire.Fields.plain textScalar "" 10).pair
    ((Wire.Fields.plain textScalar "" 18).pair (Wire.Fields.plain textScalar "" 26)
      (by decide) (by decide) (by decide)) (by decide) (by decide) (by decide)).via
    (fun p => ⟨p.1, p.2.1, p.2.2⟩) (fun r => (r.name, r.oid, r.peeled)) fun _ => rfl

def timeFields : Wire.Fields Timestamp 8 16 :=
  ((Wire.Fields.plain intScalar 0 8).pair (Wire.Fields.plain intScalar 0 16)
    (by decide) (by decide) (by decide)).via
    (fun p => ⟨p.1, p.2⟩) (fun t => (t.seconds, t.nanos)) fun _ => rfl

/-- The fields in the order of their numbers. -/
def storedFields : Wire.Fields StoredSnapshot 8 42 :=
  ((Wire.Fields.plain .nat 0 8).pair
    ((Wire.Fields.plain textScalar "" 18).pair
      ((Wire.Fields.many (.message refFields) 26).pair
        ((Wire.Fields.plain textScalar "" 34).pair
          (Wire.Fields.optional (.message timeFields) 42)
          (by decide) (by decide) (by decide)) (by decide) (by decide) (by decide))
      (by decide) (by decide) (by decide)) (by decide) (by decide) (by decide)).via
    (fun p => ⟨⟨p.2.1, p.2.2.2.1, p.2.2.1⟩, p.1, p.2.2.2.2⟩)
    (fun s => (s.seq, s.objectFormat, s.refs, s.headTarget, s.createdAt)) fun _ => rfl

def storedCodec : Wire.Codec StoredSnapshot String :=
  storedFields.codec "failed to decode Protobuf message"

/-- A branch and a tag, the tag first. -/
def tagFirst : StoredSnapshot where
  objectFormat := "sha1"
  headTarget := "refs/heads/main"
  refs := [⟨"refs/tags/v1", repeated 'b', repeated 'a'⟩, ⟨"refs/heads/main", repeated 'a', ""⟩]
  seq := 7
  createdAt := some ⟨1700000000, 0⟩

def branchFirst : StoredSnapshot :=
  { tagFirst with refs := tagFirst.refs.reverse, createdAt := none }

/-- The hash of the bytes of the snapshot; other bytes have longer ones. -/
def tagDigest (bytes : List UInt8) : List UInt8 :=
  if bytes = storedCodec.encode branchFirst then
    [166, 14, 234, 121, 24, 199, 89, 154, 211, 65, 100, 70, 215, 78, 226, 1, 58, 32, 22, 200,
      116, 203, 86, 253, 20, 165, 169, 129, 63, 254, 22, 54]
  else List.replicate 33 0 ++ bytes

theorem tagDigest_injective : Function.Injective tagDigest := by
  intro b b' h
  unfold tagDigest at h
  split_ifs at h with hb hb'
  · rw [hb, hb']
  · have := congrArg List.length h
    simp at this
  · have := congrArg List.length h
    simp at this
  · exact List.append_cancel_left h

attribute [local instance] Text.asciiTables

theorem snapshots_canonical_tagFirst :
    ∃ bytes, encode storedCodec tagFirst = .ok bytes ∧ encode storedCodec branchFirst = .ok bytes ∧
      ∃ r, decodeVerified storedCodec tagDigest (key tagDigest bytes) bytes = .ok r ∧
        SameState r tagFirst := by
  obtain ⟨hencode, hdecode, hread⟩ :=
    @snapshots_canonical _ storedCodec tagDigest tagDigest_injective
  have hrefs : validateRefs 40 [] tagFirst.refs = .ok () := by
    refine validateRefs_ok.mpr ⟨by decide, by simp, fun r hr => ?_⟩
    simp only [tagFirst, List.mem_cons, List.not_mem_nil, or_false] at hr
    rcases hr with rfl | rfl
    · exact ⟨by decide, by decide, Or.inr ⟨by decide, by decide⟩⟩
    · exact ⟨by decide, by decide, Or.inl rfl⟩
  obtain ⟨bytes, hbytes, hsame⟩ :=
    hencode tagFirst (validate_ok.mpr ⟨.sha1, rfl, Or.inr (by decide), hrefs⟩)
  have hbranch : SameState branchFirst tagFirst :=
    ⟨rfl, rfl, rfl, List.reverse_perm tagFirst.refs⟩
  obtain ⟨r, hr⟩ := (hread tagFirst bytes hbytes bytes).mpr rfl
  obtain ⟨-, s, hs, -, hrs⟩ := (hdecode _ _ _).mp hr
  exact ⟨bytes, hbytes, (hsame _).mpr hbranch, r, hr, hrs.trans ((hsame s).mp hs)⟩

end Wire

end Snapshot

end Walgit
