import Mathlib.Data.List.Nodup
import Mathlib.Logic.Function.Basic
import Walgit.Checks
import Walgit.Stripes
import Walgit.Text

/-!
# Striped uploads

A large file goes up as part objects that the store joins in place. A store joins at most 32
objects in one call, so more parts than that are joined in groups first, under names of their own.
-/
namespace Walgit.StripedUpload

open Stripes

abbrev Objects : Type := String → Option (List UInt8)

/-- The modes of the callers. -/
inductive PutMode where
  | overwrite
  | create
  deriving DecidableEq, Repr

inductive StoreError where
  | notFound
  | preconditionFailed
  | invalidArgument
  deriving DecidableEq, Repr

def put (s : Objects) (key : String) (value : List UInt8) (mode : PutMode) :
    Except StoreError Objects :=
  if mode = .create ∧ (s key).isSome then .error .preconditionFailed
  else .ok (Function.update s key (some value))

/-- One request to join objects. -/
structure Call where
  dest : String
  sources : List String
  mode : PutMode
  deriving DecidableEq, Repr

/-- The joined objects stay in place. -/
def compose (s : Objects) (c : Call) : Except StoreError Objects :=
  if c.sources.length = 0 ∨ 32 < c.sources.length then .error .invalidArgument
  else
    match c.sources.mapM s with
    | none => .error .notFound
    | some contents => put s c.dest contents.flatten c.mode

def minPart : ℕ := 64 * 1024 * 1024

def maxPart : ℕ := 1024 * 1024 * 1024

/-- Two levels of composing. -/
def maxParts : ℕ := 32 * 32

/-- Whether the file goes up in parts; otherwise one `put` takes it. -/
def striped (native : Bool) (size : ℕ) : Bool := native && decide (2 * minPart < size)

def partSize (size : ℕ) : ℕ := min maxPart (max minPart (count size maxParts))

def parts (size : ℕ) : List (ℕ × ℕ) := stripes size (partSize size)

def part (file : List UInt8) (i : ℕ) : List UInt8 :=
  slice file ((parts file.length).getD i (0, 0))

def partKey (key : String) (i : ℕ) : String := key ++ ".part/" ++ Text.pad 4 i

def midKey (key : String) (g : ℕ) : String := key ++ ".part/mid" ++ Text.pad 4 g

def partKeys (key : String) (size : ℕ) : List String :=
  (List.range (parts size).length).map (partKey key)

/-- The calls of the first level. -/
def mids (key : String) (size : ℕ) : List Call :=
  (cut 32 (partKeys key size)).zipIdx.map fun chunk =>
    ⟨midKey key chunk.2, chunk.1, .overwrite⟩

/-- The calls in order; the last one makes the object. -/
def composeCalls (key : String) (size : ℕ) (mode : PutMode) : List Call :=
  if (parts size).length ≤ 32 then [⟨key, partKeys key size, mode⟩]
  else mids key size ++ [⟨key, (mids key size).map Call.dest, mode⟩]

/-- What is deleted after the last call. -/
def cleanup (key : String) (size : ℕ) : List String :=
  partKeys key size ++
    if (parts size).length ≤ 32 then [] else (mids key size).map Call.dest

section Keys

variable {key : String} {i j : ℕ}

theorem pad_toList (width n : ℕ) : (Text.pad width n).toList =
    List.replicate (width - (Nat.toDigits 10 n).length) '0' ++ Nat.toDigits 10 n := by
  simp [Text.pad]

/-- Zeros on the left do not change what the digits say. -/
theorem ofDigitChars_zeros (k : ℕ) (digits : List Char) :
    Nat.ofDigitChars 10 (List.replicate k '0' ++ digits) 0 = Nat.ofDigitChars 10 digits 0 := by
  induction k with
  | zero => rfl
  | succ k ih =>
    rw [List.replicate_succ, List.cons_append, Nat.ofDigitChars_cons]
    exact ih

theorem pad_injective (width : ℕ) : Function.Injective (Text.pad width) := by
  intro i j h
  have hlist := congrArg (fun s => Nat.ofDigitChars 10 s.toList 0) h
  simpa only [pad_toList, ofDigitChars_zeros, Nat.ofDigitChars_ten_toDigits] using hlist

theorem isDigit_of_mem_pad {width : ℕ} {c : Char} (h : c ∈ (Text.pad width i).toList) :
    c.isDigit := by
  rw [pad_toList, List.mem_append] at h
  rcases h with h | h
  · rw [List.eq_of_mem_replicate h]
    decide
  · exact Nat.isDigit_of_mem_toDigits (by decide) (by decide) h

theorem append_right_injective (s : String) : Function.Injective (s ++ ·) := by
  intro a b h
  have hlist := congrArg String.toList h
  simp only [String.toList_append, List.append_cancel_left_eq] at hlist
  exact String.toList_injective hlist

theorem partKey_inj : partKey key i = partKey key j ↔ i = j := by
  refine ⟨fun h => ?_, fun h => h ▸ rfl⟩
  exact pad_injective 4 (append_right_injective _ h)

theorem midKey_inj : midKey key i = midKey key j ↔ i = j := by
  refine ⟨fun h => ?_, fun h => h ▸ rfl⟩
  exact pad_injective 4 (append_right_injective _ h)

theorem partKey_ne_midKey : partKey key i ≠ midKey key j := by
  intro h
  have hword : ".part/mid" = ".part/" ++ "mid" := by decide
  have hkey : midKey key j = key ++ ".part/" ++ ("mid" ++ Text.pad 4 j) := by
    rw [midKey, hword, String.append_assoc, String.append_assoc, String.append_assoc]
  rw [hkey] at h
  have hpad : Text.pad 4 i = "mid" ++ Text.pad 4 j := append_right_injective _ h
  have hm : 'm' ∈ (Text.pad 4 i).toList := by simp [hpad]
  have hdigit := isDigit_of_mem_pad hm
  revert hdigit
  decide

theorem partKey_ne : partKey key i ≠ key := by
  intro h
  have hlength := congrArg String.length h
  have hword : ".part/".length = 6 := by decide
  simp only [partKey, String.length_append] at hlength
  omega

theorem midKey_ne : midKey key i ≠ key := by
  intro h
  have hlength := congrArg String.length h
  have hword : ".part/mid".length = 9 := by decide
  simp only [midKey, String.length_append] at hlength
  omega

end Keys

section Layout

variable {key : String} {size : ℕ} {mode : PutMode}

theorem partSize_pos (size : ℕ) : 0 < partSize size := by
  simp only [partSize, minPart, maxPart]
  omega

/-- The smallest part and the largest one meet the bound on the parts up to a tebibyte. -/
theorem length_parts_le : (parts size).length ≤ maxParts ↔ size ≤ 2 ^ 40 := by
  rw [parts, length_stripes, count_le_iff (partSize_pos size)]
  simp only [partSize, minPart, maxPart, maxParts, count]
  omega

@[simp] theorem length_partKeys : (partKeys key size).length = (parts size).length := by
  simp [partKeys]

/-- The indexes of the parts that are joined together. -/
def groups (size : ℕ) : List (List ℕ) := cut 32 (List.range (parts size).length)

@[simp] theorem length_groups : (groups size).length = count (parts size).length 32 := by
  simp [groups]

theorem mids_eq (key : String) (size : ℕ) : mids key size = (groups size).zipIdx.map fun group =>
    ⟨midKey key group.2, group.1.map (partKey key), .overwrite⟩ := by
  rw [mids, partKeys, cut_map, List.zipIdx_map, List.map_map, groups]
  rfl

theorem mids_dest (key : String) (size : ℕ) :
    (mids key size).map Call.dest = (List.range (groups size).length).map (midKey key) := by
  rw [mids_eq, List.map_map, List.range_eq_range', ← List.zipIdx_map_snd, List.map_map]
  rfl

/-- What a call of the first level joins. -/
theorem mem_mids {c : Call} (h : c ∈ mids key size) : ∃ g group,
    (groups size)[g]? = some group ∧ c = ⟨midKey key g, group.map (partKey key), .overwrite⟩ := by
  rw [mids_eq] at h
  obtain ⟨⟨group, g⟩, hgroup, rfl⟩ := List.mem_map.mp h
  exact ⟨g, group, List.mem_zipIdx_iff_getElem?.mp hgroup, rfl⟩

theorem length_of_mem_groups {group : List ℕ} (h : group ∈ groups size) :
    0 < group.length ∧ group.length ≤ 32 := length_of_mem_cut (by decide) h

theorem mem_groups_lt {group : List ℕ} (h : group ∈ groups size) {i : ℕ} (hi : i ∈ group) :
    i < (parts size).length := by
  have hflatten : (groups size).flatten = List.range (parts size).length :=
    flatten_cut (by decide) _
  exact List.mem_range.mp (hflatten ▸ List.mem_flatten_of_mem h hi)

/-- Whether every call joins as many objects as a store takes. -/
theorem fanOut_iff (hsize : 0 < size) :
    (∀ c ∈ composeCalls key size mode, 1 ≤ c.sources.length ∧ c.sources.length ≤ 32) ↔
      size ≤ 2 ^ 40 := by
  have hparts : 0 < (parts size).length := by
    rw [parts, length_stripes]
    exact count_pos (partSize_pos size) hsize
  rw [← length_parts_le]
  unfold composeCalls
  split_ifs with hone
  · simp only [List.forall_mem_singleton, length_partKeys, maxParts]
    omega
  · have hmids : ∀ c ∈ mids key size, 1 ≤ c.sources.length ∧ c.sources.length ≤ 32 := by
      intro c hc
      obtain ⟨g, group, hgroup, rfl⟩ := mem_mids hc
      rw [List.length_map]
      exact length_of_mem_groups (List.mem_of_getElem? hgroup)
    have hcount : count (parts size).length 32 ≤ 32 ↔ (parts size).length ≤ 32 * 32 :=
      count_le_iff (by decide)
    have hpos : 0 < count (parts size).length 32 := count_pos (by decide) hparts
    simp only [List.forall_mem_append, List.forall_mem_singleton, mids_dest, List.length_map,
      List.length_range, length_groups, hcount, maxParts]
    exact ⟨fun h => h.2.2, fun h => ⟨hmids, hpos, h⟩⟩

end Layout

section Contents

variable {key : String} {file : List UInt8} {mode : PutMode}

variable (key file) in
/-- What the objects of an upload hold once they are written. -/
def Expected (k : String) (v : List UInt8) : Prop :=
  (∃ i < (parts file.length).length, k = partKey key i ∧ v = part file i) ∨
  (∃ g group, (groups file.length)[g]? = some group ∧ k = midKey key g ∧
    v = group.flatMap (part file)) ∨
  k = key ∧ v = file

theorem expected_part {i : ℕ} (h : i < (parts file.length).length) :
    Expected key file (partKey key i) (part file i) := Or.inl ⟨i, h, rfl, rfl⟩

theorem expected_mid {g : ℕ} {group : List ℕ} (h : (groups file.length)[g]? = some group) :
    Expected key file (midKey key g) (group.flatMap (part file)) :=
  Or.inr (Or.inl ⟨g, group, h, rfl, rfl⟩)

theorem expected_whole : Expected key file key file := Or.inr (Or.inr ⟨rfl, rfl⟩)

theorem Expected.unique {k : String} {v w : List UInt8} (hv : Expected key file k v)
    (hw : Expected key file k w) : v = w := by
  rcases hv with ⟨i, -, rfl, rfl⟩ | ⟨g, group, hg, rfl, rfl⟩ | ⟨rfl, rfl⟩
  · rcases hw with ⟨j, -, hk, rfl⟩ | ⟨g, group, -, hk, rfl⟩ | ⟨hk, rfl⟩
    · rw [partKey_inj.mp hk]
    · exact absurd hk partKey_ne_midKey
    · exact absurd hk partKey_ne
  · rcases hw with ⟨j, -, hk, rfl⟩ | ⟨g', group', hg', hk, rfl⟩ | ⟨hk, rfl⟩
    · exact absurd hk.symm partKey_ne_midKey
    · rw [midKey_inj.mp hk, hg', Option.some.injEq] at hg
      rw [hg]
    · exact absurd hk midKey_ne
  · rcases hw with ⟨j, -, hk, rfl⟩ | ⟨g, group, -, hk, rfl⟩ | ⟨-, rfl⟩
    · exact absurd hk.symm partKey_ne
    · exact absurd hk.symm midKey_ne
    · rfl

theorem flatMap_part : (List.range (parts file.length).length).flatMap (part file) = file := by
  have hparts : (List.range (parts file.length).length).map (part file) =
      cut (partSize file.length) file := by
    refine List.ext_getElem? fun i => ?_
    rw [cut, List.getElem?_map, List.getElem?_map, getElem?_stripes]
    by_cases hi : i < (parts file.length).length
    · have hcount : i < count file.length (partSize file.length) := by
        rwa [parts, length_stripes] at hi
      rw [List.getElem?_range hi, if_pos hcount, Option.map_some, Option.map_some, part, parts,
        List.getD_eq_getElem?_getD, getElem?_stripes, if_pos hcount, Option.getD_some]
    · have hcount : ¬ i < count file.length (partSize file.length) := by
        rwa [parts, length_stripes] at hi
      rw [List.getElem?_eq_none (by simpa using hi), if_neg hcount]
      rfl
  rw [List.flatMap_def, hparts]
  exact flatten_cut (partSize_pos _) file

theorem flatMap_groups :
    ((groups file.length).map fun group => group.flatMap (part file)).flatten = file := by
  have hgroups : (groups file.length).flatten = List.range (parts file.length).length :=
    flatten_cut (by decide) _
  have hparts : (List.range (parts file.length).length).flatMap (part file) = file := flatMap_part
  rw [← List.flatMap_def, ← List.flatMap_assoc]
  simpa [List.flatMap_id, hgroups] using hparts

variable (key file) in
/-- The store has what is expected under these keys. -/
def Ready (s : Objects) (keys : List String) : Prop :=
  ∀ k ∈ keys, ∀ v, Expected key file k v → s k = some v

theorem Ready.subset {s : Objects} {keys keys' : List String} (h : Ready key file s keys)
    (hsub : keys' ⊆ keys) : Ready key file s keys' := fun k hk => h k (hsub hk)

/-- What a call joins is what is expected of it. -/
theorem call_expected {c : Call} (hc : c ∈ composeCalls key file.length mode) :
    ∃ contents : List (List UInt8), Expected key file c.dest contents.flatten ∧
      ∀ s, Ready key file s c.sources → c.sources.mapM s = some contents := by
  have hparts : ∀ {s} {indexes : List ℕ}, (∀ i ∈ indexes, i < (parts file.length).length) →
      Ready key file s (indexes.map (partKey key)) →
      (indexes.map (partKey key)).mapM s = some (indexes.map (part file)) := by
    intro s indexes hlt hready
    rw [List.mapM_map]
    refine Checks.mapM_eq_some_map fun i hi => ?_
    exact hready _ (List.mem_map_of_mem hi) _ (expected_part (hlt i hi))
  unfold composeCalls at hc
  split_ifs at hc with hone
  · obtain rfl := List.mem_singleton.mp hc
    refine ⟨_, ?_, fun s hready => hparts (fun i hi => List.mem_range.mp hi) hready⟩
    rw [← List.flatMap_def, flatMap_part]
    exact expected_whole
  · rcases List.mem_append.mp hc with hmid | hlast
    · obtain ⟨g, group, hgroup, rfl⟩ := mem_mids hmid
      refine ⟨_, ?_, fun s hready => hparts (fun i hi => mem_groups_lt
        (List.mem_of_getElem? hgroup) hi) hready⟩
      rw [← List.flatMap_def]
      exact expected_mid hgroup
    · obtain rfl := List.mem_singleton.mp hlast
      refine ⟨(groups file.length).map fun group => group.flatMap (part file), ?_, fun s hready => ?_⟩
      · rw [flatMap_groups]
        exact expected_whole
      have hgroups : (groups file.length).map (fun group => group.flatMap (part file)) =
          (List.range (groups file.length).length).map fun g =>
            ((groups file.length).getD g []).flatMap (part file) := by
        refine List.ext_getElem (by simp) fun g hg _ => ?_
        have hlt : g < (groups file.length).length := by simpa using hg
        simp [List.getElem?_eq_getElem hlt]
      simp only [mids_dest] at hready ⊢
      rw [List.mapM_map, hgroups]
      refine Checks.mapM_eq_some_map fun g hg => ?_
      have hlt := List.mem_range.mp hg
      refine hready _ (List.mem_map_of_mem hg) _ (expected_mid ?_)
      simp [List.getElem?_eq_getElem hlt]

end Contents

section Composing

variable {key : String} {file : List UInt8} {mode : PutMode} {s : Objects} {c : Call}
  {calls : List Call}

/-- What the calls read that none of them writes first. -/
def needs (calls : List Call) : List String :=
  (calls.flatMap Call.sources).filter fun k => k ∉ calls.map Call.dest

theorem mem_needs {k : String} :
    k ∈ needs calls ↔ (∃ c ∈ calls, k ∈ c.sources) ∧ ∀ c ∈ calls, c.dest ≠ k := by
  simp [needs]

/-- Only the last call writes the key; the others write groups. -/
theorem dest_of_mem (hc : c ∈ composeCalls key file.length mode) :
    c.dest = key ∧ c.mode = mode ∨ (∃ g, c.dest = midKey key g) ∧ c.mode = .overwrite := by
  unfold composeCalls at hc
  split_ifs at hc with hone
  · obtain rfl := List.mem_singleton.mp hc
    exact Or.inl ⟨rfl, rfl⟩
  · rcases List.mem_append.mp hc with hmid | hlast
    · obtain ⟨g, group, -, rfl⟩ := mem_mids hmid
      exact Or.inr ⟨⟨g, rfl⟩, rfl⟩
    · obtain rfl := List.mem_singleton.mp hlast
      exact Or.inl ⟨rfl, rfl⟩

/-- The call that writes the key is the last one. -/
theorem dest_eq_key (h : c :: calls <:+ composeCalls key file.length mode) :
    c.dest = key ↔ calls = [] := by
  obtain ⟨done, hdone⟩ := h
  have hmid : ∀ d ∈ mids key file.length, d.dest ≠ key := by
    intro d hd
    obtain ⟨g, group, -, rfl⟩ := mem_mids hd
    exact midKey_ne
  unfold composeCalls at hdone
  rcases List.eq_nil_or_concat calls with rfl | ⟨rest, last, rfl⟩
  · split_ifs at hdone with hone
    · have hlast := (List.append_inj' (hdone.trans (List.nil_append _).symm) rfl).2
      simp [List.cons.inj hlast]
    · have hlast := (List.append_inj' hdone rfl).2
      simp [List.cons.inj hlast]
  · refine iff_of_false (fun hkey => ?_) (by simp)
    rw [List.concat_eq_append, ← List.cons_append, ← List.append_assoc] at hdone
    split_ifs at hdone with hone
    · have hlength := congrArg List.length hdone
      simp only [List.length_append, List.length_cons, List.length_nil] at hlength
      omega
    · have hinit := (List.append_inj' hdone rfl).1
      exact hmid c (hinit ▸ by simp) hkey

/-- No call reads what it or a later one writes. -/
theorem sources_needed (h : c :: calls <:+ composeCalls key file.length mode) :
    c.sources ⊆ needs (c :: calls) := by
  intro k hk
  have hall : ∀ d ∈ c :: calls, d.dest = key ∨ ∃ g, d.dest = midKey key g := fun d hd =>
    (dest_of_mem (h.subset hd)).imp And.left And.left
  refine mem_needs.mpr ⟨⟨c, List.mem_cons_self, hk⟩, fun d hd heq => ?_⟩
  have hc := h.subset List.mem_cons_self
  by_cases hparts : ∃ i, k = partKey key i
  · obtain ⟨i, rfl⟩ := hparts
    rcases hall d hd with hdest | ⟨g, hdest⟩
    · exact partKey_ne (heq.symm.trans hdest)
    · exact partKey_ne_midKey (heq.symm.trans hdest)
  · -- A call that reads groups is the last one.
    unfold composeCalls at hc
    split_ifs at hc with hone
    · obtain rfl := List.mem_singleton.mp hc
      obtain ⟨i, -, rfl⟩ := List.mem_map.mp hk
      exact hparts ⟨i, rfl⟩
    · rcases List.mem_append.mp hc with hmid | hlast
      · obtain ⟨g, group, -, rfl⟩ := mem_mids hmid
        obtain ⟨i, -, rfl⟩ := List.mem_map.mp hk
        exact hparts ⟨i, rfl⟩
      · have hlast := List.mem_singleton.mp hlast
        have hkey : c.dest = key := by rw [hlast]
        rw [(dest_eq_key h).mp hkey] at hd
        obtain rfl := List.mem_singleton.mp hd
        rw [hlast] at hk
        simp only [mids_dest] at hk
        obtain ⟨g, -, rfl⟩ := List.mem_map.mp hk
        exact midKey_ne (heq.symm.trans hkey)

theorem needs_tail : needs calls ⊆ needs (c :: calls) ++ [c.dest] := by
  intro k hk
  obtain ⟨⟨d, hd, hkd⟩, hout⟩ := mem_needs.mp hk
  by_cases hdest : c.dest = k
  · exact List.mem_append_right _ (List.mem_singleton.mpr hdest.symm)
  · exact List.mem_append_left _ (mem_needs.mpr
      ⟨⟨d, List.mem_cons_of_mem c hd, hkd⟩, List.forall_mem_cons.mpr ⟨hdest, hout⟩⟩)

/-- At the start the calls read parts. -/
theorem needs_parts {k : String} (hk : k ∈ needs (composeCalls key file.length mode)) :
    ∃ i < (parts file.length).length, k = partKey key i := by
  obtain ⟨⟨c, hc, hkc⟩, hout⟩ := mem_needs.mp hk
  unfold composeCalls at hc hout
  split_ifs at hc hout with hone
  · obtain rfl := List.mem_singleton.mp hc
    obtain ⟨i, hi, rfl⟩ := List.mem_map.mp hkc
    exact ⟨i, List.mem_range.mp hi, rfl⟩
  · rcases List.mem_append.mp hc with hmid | hlast
    · obtain ⟨g, group, hgroup, rfl⟩ := mem_mids hmid
      obtain ⟨i, hi, rfl⟩ := List.mem_map.mp hkc
      exact ⟨i, mem_groups_lt (List.mem_of_getElem? hgroup) hi, rfl⟩
    · obtain rfl := List.mem_singleton.mp hlast
      obtain ⟨d, hd, rfl⟩ := List.mem_map.mp hkc
      exact absurd rfl (hout d (List.mem_append_left _ hd))

/-- A call that finds its sources writes what is expected, and the calls after it find theirs. -/
theorem compose_step (h : c :: calls <:+ composeCalls key file.length mode)
    (hsize : file.length ≤ 2 ^ 40) (hpos : 0 < file.length)
    (hready : Ready key file s (needs (c :: calls))) :
    ∃ v, Expected key file c.dest v ∧ compose s c = put s c.dest v c.mode ∧
      Ready key file (Function.update s c.dest (some v)) (needs calls) := by
  have hc := h.subset List.mem_cons_self
  obtain ⟨contents, hexpected, hsources⟩ := call_expected hc
  obtain ⟨hfew, hmany⟩ := (fanOut_iff hpos).mpr hsize c hc
  refine ⟨contents.flatten, hexpected, ?_, fun k hk v hv => ?_⟩
  · rw [compose, if_neg (by omega), hsources s (hready.subset (sources_needed h))]
  · by_cases hkc : k = c.dest
    · subst hkc
      rw [Function.update_self, hexpected.unique hv]
    · rw [Function.update_of_ne hkc]
      refine hready k ?_ v hv
      exact (List.mem_append.mp (needs_tail hk)).resolve_right (by simpa using hkc)

/-- The calls make the object out of its parts. -/
theorem foldlM_compose (h : c :: calls <:+ composeCalls key file.length mode)
    (hsize : file.length ≤ 2 ^ 40) (hpos : 0 < file.length)
    (hready : Ready key file s (needs (c :: calls))) (hmode : mode = .create → s key = none) :
    ∃ s', (c :: calls).foldlM compose s = .ok s' ∧ s' key = some file := by
  induction calls generalizing c s with
  | nil =>
    have hkey := (dest_eq_key h).mpr rfl
    obtain ⟨v, hv, hcompose, -⟩ := compose_step h hsize hpos hready
    rw [hkey] at hv hcompose
    obtain rfl := hv.unique expected_whole
    rcases dest_of_mem (h.subset List.mem_cons_self) with ⟨-, hcm⟩ | ⟨⟨g, hg⟩, -⟩
    · refine ⟨Function.update s key (some v), ?_, Function.update_self ..⟩
      rw [List.foldlM_cons, hcompose, put, if_neg (by rw [hcm]; simp_all)]
      rfl
    · exact absurd (hg.symm.trans hkey) midKey_ne
  | cons d calls ih =>
    have hne : c.dest ≠ key := fun heq => by simpa using (dest_eq_key h).mp heq
    obtain ⟨v, -, hcompose, hready'⟩ := compose_step h hsize hpos hready
    obtain ⟨s', hs', hfile⟩ := ih ((List.suffix_cons c _).trans h) hready' (by
      rwa [Function.update_of_ne hne.symm])
    refine ⟨s', ?_, hfile⟩
    rcases dest_of_mem (h.subset List.mem_cons_self) with ⟨heq, -⟩ | ⟨-, hcm⟩
    · exact absurd heq hne
    · rw [List.foldlM_cons, hcompose, put, if_neg (by simp [hcm])]
      exact hs'

end Composing

section Validity

variable (key : String) (file : List UInt8) (mode : PutMode)

/-- The layout of an upload: its parts, its calls, and what they make out of stored parts. -/
structure ValidLayout : Prop where
  tiles : Tiles 0 file.length (parts file.length)
  distinct : (partKeys key file.length).Nodup
  fanOut : ∀ c ∈ composeCalls key file.length mode, 1 ≤ c.sources.length ∧ c.sources.length ≤ 32
  composed : ∀ s : Objects, (mode = .create → s key = none) →
    (∀ i < (parts file.length).length, s (partKey key i) = some (part file i)) →
    ∃ s', (composeCalls key file.length mode).foldlM compose s = .ok s' ∧ s' key = some file

/-- The layout of a file that goes up in parts is valid up to a tebibyte, and not beyond. -/
theorem layout_valid (h : striped true file.length) :
    ValidLayout key file mode ↔ file.length ≤ 2 ^ 40 := by
  have hpos : 0 < file.length := by
    simp only [striped, Bool.true_and, decide_eq_true_eq] at h
    omega
  refine ⟨fun hvalid => (fanOut_iff hpos).mp hvalid.fanOut, fun hsize => ⟨?_, ?_, ?_, ?_⟩⟩
  · exact tiles_stripes (partSize_pos _)
  · exact List.Nodup.map (fun i j hij => partKey_inj.mp hij) List.nodup_range
  · exact (fanOut_iff hpos).mpr hsize
  · intro s hmode hparts
    have hready : Ready key file s (needs (composeCalls key file.length mode)) := by
      intro k hk v hv
      obtain ⟨i, hi, rfl⟩ := needs_parts hk
      rw [hparts i hi, hv.unique (expected_part hi)]
    cases hcalls : composeCalls key file.length mode with
    | nil =>
      unfold composeCalls at hcalls
      split_ifs at hcalls
      simp at hcalls
    | cons c calls =>
      exact foldlM_compose (hcalls ▸ List.suffix_refl _) hsize hpos (hcalls ▸ hready) hmode

theorem layout_valid_of_three :
    ValidLayout "repos/o/r/wal/p.pack" (List.replicate (2 ^ 27 + 1) 0) .create := by
  have hlength : (List.replicate (2 ^ 27 + 1) (0 : UInt8)).length = 2 ^ 27 + 1 :=
    List.length_replicate
  refine (layout_valid _ _ _ ?_).mpr ?_
  · rw [hlength]
    decide
  · rw [hlength]
    decide

/-- One byte past a tebibyte the last call joins 33 groups. -/
theorem layout_breaks :
    ¬ ValidLayout "repos/o/r/wal/p.pack" (List.replicate (2 ^ 40 + 1) 0) .create := by
  have hlength : (List.replicate (2 ^ 40 + 1) (0 : UInt8)).length = 2 ^ 40 + 1 :=
    List.length_replicate
  intro h
  have hfan := h.fanOut
  rw [fanOut_iff (by rw [hlength]; decide), hlength] at hfan
  omega

end Validity

end Walgit.StripedUpload
