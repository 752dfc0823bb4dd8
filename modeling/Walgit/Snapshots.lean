import Walgit.Checks
import Walgit.Receive

/-!
# Ref snapshots

A checkpoint stores the refs as a snapshot, and `validate` guards its encoding. Its rules
for names and object ids are not those of the receive path; this module says which pushes
keep the refs encodable.
-/
namespace Walgit

open Text

structure Ref where
  name : String
  oid : String
  peeled : String
  deriving DecidableEq, Repr

structure RefSnapshot where
  objectFormat : String
  headTarget : String
  refs : List Ref
  deriving DecidableEq, Repr

inductive ObjectFormat where
  | sha1
  | sha256
  deriving DecidableEq, Repr

namespace ObjectFormat

def text : ObjectFormat → String
  | sha1 => "sha1"
  | sha256 => "sha256"

def oidLen : ObjectFormat → ℕ
  | sha1 => 40
  | sha256 => 64

end ObjectFormat

namespace Snapshot

def validRef (name : String) : Bool :=
  startsWith "refs/" name && !endsWith "/" name && !endsWith "." name && !contains ".." name &&
    !contains "@\x7b" name &&
    !name.toList.any (fun c => c.toNat ≤ 32 || c.toNat == 127 || c ∈ "~^:?*[\\".toList) &&
    (name.toList.splitOn '/').all fun part =>
      !part.isEmpty && !startsWith "." (String.ofList part) &&
        !endsWith ".lock" (String.ofList part)

def validOid (oid : String) (len : ℕ) : Bool :=
  oid.utf8ByteSize == len &&
    oid.toList.all (fun c => c.isDigit || (decide ('a' ≤ c) && decide (c ≤ 'f'))) &&
    oid.toList.any (· != '0')

section Validate

variable [CharTables]

/-- The loop over the refs; `names` are those seen so far. -/
def validateRefs (oidLen : ℕ) : List String → List Ref → Except String Unit
  | _, [] => .ok ()
  | names, r :: refs => do
    if !validRef r.name then throw ("invalid snapshot ref name " ++ debug r.name)
    if r.name ∈ names then throw ("duplicate snapshot ref " ++ debug r.name)
    if !validOid r.oid oidLen then throw ("invalid snapshot OID for " ++ r.name)
    if !(r.peeled = "" || (startsWith "refs/tags/" r.name && validOid r.peeled oidLen)) then
      throw ("invalid snapshot peeled target for " ++ r.name)
    validateRefs oidLen (r.name :: names) refs

def validate (snapshot : RefSnapshot) : Except String Unit := do
  let oidLen ← match snapshot.objectFormat with
    | "sha1" => pure 40
    | "sha256" => pure 64
    | other => throw ("unsupported snapshot object format " ++ debug other)
  if !(snapshot.headTarget = "" || validRef snapshot.headTarget) then
    throw "invalid snapshot symbolic HEAD"
  validateRefs oidLen [] snapshot.refs

end Validate

/-- The snapshot of the refs; `peel` finds what an annotated tag points at. -/
def ofRefs (format : ObjectFormat) (peel : String → Option String) (s : RefState) : RefSnapshot where
  objectFormat := format.text
  headTarget := s.headTarget
  refs := s.refs.entries.map fun r =>
    ⟨r.1, r.2, if startsWith "refs/tags/" r.1 then (peel r.2).getD "" else ""⟩

/-- A ref a snapshot takes. -/
def validEntry (format : ObjectFormat) (name oid : String) : Bool :=
  validRef name && validOid oid format.oidLen

/-- The refs and the HEAD a snapshot takes. -/
def Encodable (format : ObjectFormat) (s : RefState) : Prop :=
  (s.headTarget = "" ∨ validRef s.headTarget) ∧
    ∀ name oid, s.refs.find? name = some oid → validEntry format name oid

/-- Everything a transaction leaves set is taken by a snapshot, and so is its HEAD. -/
def clean (format : ObjectFormat) (t : RefTransaction) : Bool :=
  t.sets.all (fun r => validEntry format r.1 r.2) && t.target.all validRef

theorem encodable_fresh (format : ObjectFormat) : Encodable format .fresh := by
  refine ⟨Or.inr (by decide), fun name oid h => ?_⟩
  simp [RefState.fresh] at h

theorem target_ne_empty {t : RefTransaction} {target : String} (h : t.target = some target) :
    target ≠ "" := by
  obtain ⟨u, hu, rfl⟩ := Option.map_eq_some_iff.mp h
  have hsym := List.find?_some hu
  simp only [RefUpdate.symbolic, Bool.and_eq_true, bne_iff_ne] at hsym
  exact hsym.1

/-- A transaction keeps the refs encodable exactly if it is clean. -/
theorem encodable_applyTxn {format : ObjectFormat} {s : RefState} (h : Encodable format s)
    (t : RefTransaction) : Encodable format (s.applyTxn t) ↔ clean format t := by
  simp only [Encodable, clean, Bool.and_eq_true, List.all_eq_true, Option.all_eq_true,
    RefState.applyTxn_headTarget, RefState.applyTxn_find?_eq_some]
  constructor
  · rintro ⟨hhead, hrefs⟩
    refine ⟨fun r hr => hrefs r.1 r.2 (Or.inl hr), fun target htarget => ?_⟩
    rw [htarget, Option.getD_some] at hhead
    exact hhead.resolve_left (target_ne_empty htarget)
  · rintro ⟨hsets, htarget⟩
    refine ⟨?_, fun name oid hset => ?_⟩
    · cases hmoved : t.target with
      | none => exact h.1
      | some target => exact Or.inr (htarget target hmoved)
    · rcases hset with hset | ⟨-, hold⟩
      · exact hsets (name, oid) hset
      · exact h.2 name oid hold

section Refs

variable [CharTables]

theorem validateRefs_ok {oidLen : ℕ} {names : List String} {refs : List Ref} :
    validateRefs oidLen names refs = .ok () ↔
      (refs.map Ref.name).Nodup ∧ (∀ r ∈ refs, r.name ∉ names) ∧
      ∀ r ∈ refs, validRef r.name ∧ validOid r.oid oidLen ∧
        (r.peeled = "" ∨ (startsWith "refs/tags/" r.name ∧ validOid r.peeled oidLen)) := by
  induction refs generalizing names with
  | nil => simp [validateRefs]
  | cons r refs ih =>
    simp only [validateRefs, Checks.guard_ok, ih]
    simp only [List.map_cons, List.nodup_cons, List.mem_map, List.mem_cons, not_or, forall_eq_or_imp,
      Bool.not_eq_true', Bool.not_eq_false, Bool.or_eq_true, Bool.and_eq_true, decide_eq_true_eq]
    constructor
    · rintro ⟨hname, hfresh, hoid, hpeeled, hnodup, hnew, hrest⟩
      exact ⟨⟨fun ⟨q, hq, heq⟩ => (hnew q hq).1 heq, hnodup⟩,
        ⟨hfresh, fun q hq => (hnew q hq).2⟩, ⟨hname, hoid, hpeeled⟩, hrest⟩
    · rintro ⟨⟨hother, hnodup⟩, ⟨hfresh, hnew⟩, ⟨hname, hoid, hpeeled⟩, hrest⟩
      exact ⟨hname, hfresh, hoid, hpeeled, hnodup,
        fun q hq => ⟨fun heq => hother ⟨q, hq, heq⟩, hnew q hq⟩, hrest⟩

/-- A snapshot of the refs is taken exactly if they are encodable. -/
theorem validate_ofRefs {format : ObjectFormat} {peel : String → Option String}
    (hpeel : ∀ oid peeled, peel oid = some peeled → validOid peeled format.oidLen)
    (s : RefState) : validate (ofRefs format peel s) = .ok () ↔ Encodable format s := by
  have hrefs : validateRefs format.oidLen [] (ofRefs format peel s).refs = .ok () ↔
      ∀ name oid, s.refs.find? name = some oid → validEntry format name oid := by
    rw [validateRefs_ok]
    simp only [ofRefs, List.map_map, List.mem_map, SortedMap.find?_eq_some_iff, validEntry,
      Bool.and_eq_true]
    constructor
    · rintro ⟨-, -, hall⟩ name oid hmem
      have hr := hall _ ⟨(name, oid), hmem, rfl⟩
      exact ⟨hr.1, hr.2.1⟩
    · intro hall
      refine ⟨?_, by simp, ?_⟩
      · exact List.pairwise_map.mpr (s.refs.sorted.imp fun hlt => ne_of_lt hlt)
      · rintro r ⟨⟨name, oid⟩, hmem, rfl⟩
        obtain ⟨hname, hoid⟩ := hall name oid hmem
        refine ⟨hname, hoid, ?_⟩
        by_cases htag : startsWith "refs/tags/" name
        · simp only [htag, if_true, true_and]
          cases hp : peel oid with
          | none => exact Or.inl rfl
          | some peeled => exact Or.inr (hpeel oid peeled hp)
        · simp [htag]
  have hformat : validate (ofRefs format peel s) =
      if !(s.headTarget = "" || validRef s.headTarget) then throw "invalid snapshot symbolic HEAD"
      else validateRefs format.oidLen [] (ofRefs format peel s).refs := by
    cases format <;> rfl
  rw [hformat, Checks.last_ok, hrefs]
  simp [Encodable, or_iff_not_imp_left]

end Refs

end Snapshot

section Push

attribute [local instance] Text.asciiTables

/-- A push of one new ref to an empty repository. -/
def pushNew (name : String) : Push where
  lines := [.data ("0000000000000000000000000000000000000000 " ++
    "aaaaaaaaaaaaaaaaaaaaaaaaaaaaaaaaaaaaaaaa " ++ name ++ "\x00 report-status"), .flush]
  allowed := fun _ => true
  seen := .fresh

end Push

end Walgit
