import Mathlib.Data.List.Lex
import Mathlib.Data.String.Basic
import Mathlib.Order.Basic

/-!
# Sorted association lists

A finite map is a list of bindings in strictly increasing key order. The order is
a field of the structure, so two maps with the same lookups are equal and every
operation is executable.
-/

/-- Bindings in strictly increasing key order. -/
structure SortedMap (κ α : Type) [LinearOrder κ] where
  entries : List (κ × α)
  sorted : entries.Pairwise (fun a b => a.1 < b.1)

namespace SortedMap

variable {κ α β : Type} [LinearOrder κ]

instance [DecidableEq α] : DecidableEq (SortedMap κ α) := fun m n =>
  decidable_of_iff (m.entries = n.entries) (by cases m; cases n; simp)

instance [Repr κ] [Repr α] : Repr (SortedMap κ α) := ⟨fun m => reprPrec m.entries⟩

def empty : SortedMap κ α := ⟨[], List.Pairwise.nil⟩

instance : Inhabited (SortedMap κ α) := ⟨empty⟩

/-- First binding of a key in a list of bindings. -/
def lookup (k : κ) : List (κ × α) → Option α
  | [] => none
  | b :: rest => if b.1 = k then some b.2 else lookup k rest

def find? (m : SortedMap κ α) (k : κ) : Option α := lookup k m.entries

/-- Single-pass insertion that replaces an existing binding. -/
def insertEntry (k : κ) (v : α) : List (κ × α) → List (κ × α)
  | [] => [(k, v)]
  | b :: rest =>
    if k < b.1 then (k, v) :: b :: rest
    else if k = b.1 then (k, v) :: rest
    else b :: insertEntry k v rest

theorem mem_insertEntry {k : κ} {v : α} {b : κ × α} {l : List (κ × α)}
    (h : b ∈ insertEntry k v l) : b = (k, v) ∨ b ∈ l := by
  induction l with
  | nil => simpa [insertEntry] using h
  | cons c l ih =>
    unfold insertEntry at h
    split_ifs at h <;> grind

theorem insertEntry_sorted (k : κ) (v : α) {l : List (κ × α)}
    (h : l.Pairwise (fun a b => a.1 < b.1)) :
    (insertEntry k v l).Pairwise (fun a b => a.1 < b.1) := by
  induction l with
  | nil => simp [insertEntry]
  | cons c l ih =>
    obtain ⟨hc, hl⟩ := List.pairwise_cons.mp h
    unfold insertEntry
    split_ifs with hlt heq
    · refine List.pairwise_cons.mpr ⟨fun b hb => ?_, h⟩
      rcases List.mem_cons.mp hb with rfl | hb
      · exact hlt
      · exact hlt.trans (hc b hb)
    · exact List.pairwise_cons.mpr ⟨fun b hb => heq ▸ hc b hb, hl⟩
    · refine List.pairwise_cons.mpr ⟨fun b hb => ?_, ih hl⟩
      rcases mem_insertEntry hb with rfl | hb
      · exact lt_of_le_of_ne (not_lt.mp hlt) (Ne.symm heq)
      · exact hc b hb

theorem lookup_insertEntry (k j : κ) (v : α) (l : List (κ × α)) :
    lookup j (insertEntry k v l) = if j = k then some v else lookup j l := by
  induction l with
  | nil => simp [insertEntry, lookup, eq_comm]
  | cons c l ih =>
    unfold insertEntry
    split_ifs with hlt heq hjk hjk hjk <;> simp_all [lookup, eq_comm]

def insert (m : SortedMap κ α) (k : κ) (v : α) : SortedMap κ α :=
  ⟨insertEntry k v m.entries, insertEntry_sorted k v m.sorted⟩

def erase (m : SortedMap κ α) (k : κ) : SortedMap κ α :=
  ⟨m.entries.filter (fun b => b.1 ≠ k), m.sorted.filter _⟩

/-- Apply a function to the value of one key, if the key is bound. -/
def modify (m : SortedMap κ α) (k : κ) (f : α → α) : SortedMap κ α :=
  match m.find? k with
  | none => m
  | some v => m.insert k (f v)

def keys (m : SortedMap κ α) : List κ := m.entries.map Prod.fst

def values (m : SortedMap κ α) : List α := m.entries.map Prod.snd

def mapValues (m : SortedMap κ α) (f : α → α) : SortedMap κ α :=
  ⟨m.entries.map (fun b => (b.1, f b.2)), List.pairwise_map.mpr m.sorted⟩

def ofList (l : List (κ × α)) : SortedMap κ α :=
  l.foldl (fun m b => m.insert b.1 b.2) empty

/-- A sorted set: the keys of a list without repetition. -/
def setOf (l : List κ) : SortedMap κ Unit := ofList (l.map fun k => (k, ()))

@[simp] theorem find?_empty (k : κ) : (empty : SortedMap κ α).find? k = none := rfl

@[simp] theorem find?_insert (m : SortedMap κ α) (k j : κ) (v : α) :
    (m.insert k v).find? j = if j = k then some v else m.find? j :=
  lookup_insertEntry k j v m.entries

theorem lookup_filter_ne (k j : κ) (l : List (κ × α)) :
    lookup j (l.filter (fun b => b.1 ≠ k)) = if j = k then none else lookup j l := by
  induction l with
  | nil => simp [lookup]
  | cons c l ih =>
    by_cases hck : c.1 = k
    · rw [List.filter_cons_of_neg (by simpa using hck), ih]
      split_ifs with hjk
      · rfl
      · have hcj : c.1 ≠ j := fun h => hjk (h.symm.trans hck)
        simp [lookup, hcj]
    · rw [List.filter_cons_of_pos (by simpa using hck)]
      simp only [lookup]
      split_ifs with hcj hjk hjk
      · exact absurd (hcj.trans hjk) hck
      · rfl
      · rw [ih, if_pos hjk]
      · rw [ih, if_neg hjk]

@[simp] theorem find?_erase (m : SortedMap κ α) (k j : κ) :
    (m.erase k).find? j = if j = k then none else m.find? j :=
  lookup_filter_ne k j m.entries

theorem find?_modify (m : SortedMap κ α) (k j : κ) (f : α → α) :
    (m.modify k f).find? j = if j = k then (m.find? j).map f else m.find? j := by
  unfold modify
  split
  · rename_i h
    split_ifs with hjk
    · rw [hjk, h]; rfl
    · rfl
  · rename_i v h
    rw [find?_insert]
    split_ifs with hjk
    · rw [hjk, h]; rfl
    · rfl

theorem lookup_map_snd (k : κ) (f : α → α) (l : List (κ × α)) :
    lookup k (l.map fun b => (b.1, f b.2)) = (lookup k l).map f := by
  induction l with
  | nil => rfl
  | cons c l ih =>
    simp only [List.map_cons, lookup]
    split_ifs
    · rfl
    · exact ih

@[simp] theorem find?_mapValues (m : SortedMap κ α) (k : κ) (f : α → α) :
    (m.mapValues f).find? k = (m.find? k).map f :=
  lookup_map_snd k f m.entries

theorem lookup_eq_some_iff {k : κ} {v : α} {l : List (κ × α)}
    (h : l.Pairwise (fun a b => a.1 < b.1)) : lookup k l = some v ↔ (k, v) ∈ l := by
  induction l with
  | nil => simp [lookup]
  | cons c l ih =>
    obtain ⟨hc, hl⟩ := List.pairwise_cons.mp h
    unfold lookup
    split_ifs with hck
    · constructor
      · intro hv
        have hcv : c = (k, v) := Prod.ext hck (Option.some.inj hv)
        exact hcv ▸ List.mem_cons_self
      · intro hm
        rcases List.mem_cons.mp hm with rfl | hm
        · rfl
        · exact absurd (hc _ hm) (hck ▸ lt_irrefl _)
    · rw [ih hl, List.mem_cons]
      refine ⟨Or.inr, fun hm => hm.resolve_left fun he => hck (by rw [← he])⟩

theorem find?_eq_some_iff {m : SortedMap κ α} {k : κ} {v : α} :
    m.find? k = some v ↔ (k, v) ∈ m.entries :=
  lookup_eq_some_iff m.sorted

theorem find?_eq_some_of_mem {m : SortedMap κ α} {b : κ × α} (h : b ∈ m.entries) :
    m.find? b.1 = some b.2 :=
  find?_eq_some_iff.mpr h

theorem mem_keys {m : SortedMap κ α} {k : κ} :
    k ∈ m.keys ↔ (m.find? k).isSome := by
  rw [Option.isSome_iff_exists]
  simp only [keys, List.mem_map, find?_eq_some_iff]
  constructor
  · rintro ⟨⟨k', v⟩, hmem, rfl⟩
    exact ⟨v, hmem⟩
  · rintro ⟨v, hmem⟩
    exact ⟨(k, v), hmem, rfl⟩

theorem nodup_keys (m : SortedMap κ α) : m.keys.Nodup :=
  (List.pairwise_map.mpr m.sorted).imp fun h => h.ne

theorem mem_values {m : SortedMap κ α} {v : α} :
    v ∈ m.values ↔ ∃ k, m.find? k = some v := by
  simp only [values, List.mem_map, find?_eq_some_iff]
  constructor
  · rintro ⟨⟨k, w⟩, hm, rfl⟩
    exact ⟨k, hm⟩
  · rintro ⟨k, hm⟩
    exact ⟨(k, v), hm, rfl⟩

/-- Two maps with the same lookups are the same map. -/
@[ext] theorem ext_find? {m n : SortedMap κ α} (h : ∀ k, m.find? k = n.find? k) : m = n := by
  have hmem : ∀ b : κ × α, b ∈ m.entries ↔ b ∈ n.entries := by
    intro b
    rw [← find?_eq_some_iff (k := b.1) (v := b.2), ← find?_eq_some_iff (k := b.1) (v := b.2), h]
  have hnodup : ∀ {p : SortedMap κ α}, p.entries.Nodup := by
    intro p
    refine p.sorted.imp ?_
    rintro a b hab rfl
    exact lt_irrefl _ hab
  have hperm : m.entries.Perm n.entries := (List.perm_ext_iff_of_nodup hnodup hnodup).mpr hmem
  have heq : m.entries = n.entries := hperm.eq_of_pairwise
    (fun _ _ _ _ hab hba => absurd (hab.trans hba) (lt_irrefl _)) m.sorted n.sorted
  cases m
  cases n
  cases heq
  rfl

theorem isSome_setOf (l : List κ) (k : κ) : ((setOf l).find? k).isSome ↔ k ∈ l := by
  have hfold : ∀ (bs : List (κ × Unit)) (m : SortedMap κ Unit),
      ((bs.foldl (fun m b => m.insert b.1 b.2) m).find? k).isSome ↔
        (m.find? k).isSome ∨ k ∈ bs.map Prod.fst := by
    intro bs
    induction bs with
    | nil => simp
    | cons b bs ih =>
      intro m
      rw [List.foldl_cons, ih, find?_insert, List.map_cons, List.mem_cons]
      split_ifs with hk <;> simp [hk]
  rw [setOf, ofList, hfold]
  simp

/-- A key above all others goes to the end. -/
theorem values_insert_of_lt {m : SortedMap κ α} {k : κ} (v : α)
    (h : ∀ j w, m.find? j = some w → j < k) : (m.insert k v).values = m.values ++ [v] := by
  have hlt : ∀ b ∈ m.entries, b.1 < k := fun b hb => h b.1 b.2 (find?_eq_some_of_mem hb)
  have hentries : ∀ l : List (κ × α), (∀ b ∈ l, b.1 < k) → insertEntry k v l = l ++ [(k, v)] := by
    intro l
    induction l with
    | nil => intro _; rfl
    | cons c l ih =>
      intro hl
      have hc := hl c List.mem_cons_self
      rw [insertEntry, if_neg (not_lt.mpr hc.le), if_neg hc.ne', List.cons_append,
        ih fun b hb => hl b (List.mem_cons_of_mem _ hb)]
  simp [values, insert, hentries m.entries hlt]

/-- Modifying one value maps the values in place. -/
theorem values_modify (m : SortedMap κ α) (k : κ) (f : α → α) :
    (m.modify k f).values = m.entries.map fun b => if b.1 = k then f b.2 else b.2 := by
  let g : κ × α → κ × α := fun b => (b.1, if b.1 = k then f b.2 else b.2)
  let n : SortedMap κ α := ⟨m.entries.map g, List.pairwise_map.mpr m.sorted⟩
  have hlookup : ∀ (l : List (κ × α)) (j : κ),
      lookup j (l.map g) = if j = k then (lookup j l).map f else lookup j l := by
    intro l j
    induction l with
    | nil => simp [lookup]
    | cons c l ih =>
      simp only [List.map_cons, lookup, g] at ih ⊢
      by_cases hcj : c.1 = j
      · subst hcj
        by_cases hk : c.1 = k <;> simp [hk]
      · simpa [hcj] using ih
  have hmn : m.modify k f = n := by
    ext1 j
    rw [find?_modify]
    exact (hlookup m.entries j).symm
  rw [hmn]
  simp [values, n, g]

/-- A search that cannot tell a value from its modification finds the same thing. -/
theorem find?_values_modify {β : Type*} {m : SortedMap κ α} {k : κ} {f : α → α} {p : α → Bool}
    {φ : α → β} (h : ∀ v, m.find? k = some v → p (f v) = p v ∧ (p v → φ (f v) = φ v)) :
    ((m.modify k f).values.find? p).map φ = (m.values.find? p).map φ := by
  have hmem : ∀ b ∈ m.entries, b.1 = k → p (f b.2) = p b.2 ∧ (p b.2 → φ (f b.2) = φ b.2) :=
    fun b hb hk => h b.2 (hk ▸ find?_eq_some_of_mem hb)
  rw [values_modify, values]
  generalize m.entries = l at hmem
  induction l with
  | nil => rfl
  | cons c l ih =>
    have ih := ih fun b hb => hmem b (List.mem_cons_of_mem _ hb)
    by_cases hk : c.1 = k
    · obtain ⟨hp, hφ⟩ := hmem c List.mem_cons_self hk
      cases hpc : p c.2 with
      | true => simp [hk, hp, hpc, hφ hpc]
      | false => simpa [hk, hp, hpc] using ih
    · cases hpc : p c.2 with
      | true => simp [hk, hpc]
      | false => simpa [hk, hpc] using ih

end SortedMap
