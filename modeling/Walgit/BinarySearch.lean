import Mathlib.Data.Bool.Basic
import Mathlib.Data.List.Basic
import Mathlib.Order.Basic
import Mathlib.Order.Lattice

/-!
# Binary search

`slice::binary_search_by` over a list in increasing key order: where a key is, or where it would
have to be inserted. `slice::partition_point` is the same search for where a condition ends.
-/
namespace BinarySearch

variable {α κ : Type} [LinearOrder κ] (key : α → κ)

/-- The loop: halves the window `[base, base + size)` until one element is left. -/
def narrow (l : List α) (k : κ) : ℕ → ℕ → ℕ → ℕ
  | 0, _, base => base
  | fuel + 1, size, base =>
    if size ≤ 1 then base
    else
      let half := size / 2
      let mid := base + half
      narrow l k fuel (size - half) (if (l[mid]?).any fun a => k < key a then base else mid)

/-- The index of the key, or the index it belongs at. -/
def search (l : List α) (k : κ) : Except ℕ ℕ :=
  let base := narrow key l k l.length l.length 0
  match l[base]? with
  | none => .error 0
  | some a => if key a = k then .ok base else .error (if key a < k then base + 1 else base)

variable {key} {l : List α} {k : κ}

/-- Where a condition that holds of the first elements ends. -/
def partitionPoint (p : α → Bool) (l : List α) : ℕ :=
  let base := narrow (fun a => !p a) l false l.length l.length 0
  match l[base]? with
  | none => 0
  | some a => if p a then base + 1 else base

/-- A window that still holds the last element with a key up to `k`. -/
structure Window (key : α → κ) (l : List α) (k : κ) (size base : ℕ) : Prop where
  nonempty : 0 < size
  inside : base + size ≤ l.length
  below : base = 0 ∨ ∃ a, l[base]? = some a ∧ key a ≤ k
  above : ∀ i a, base + size ≤ i → l[i]? = some a → k < key a

theorem Window.narrow (hsorted : l.Pairwise fun a b => key a ≤ key b) {fuel size base : ℕ}
    (hfuel : size ≤ fuel + 1) (h : Window key l k size base) :
    Window key l k 1 (BinarySearch.narrow key l k fuel size base) := by
  induction fuel generalizing size base with
  | zero =>
    have hone : size = 1 := by
      have := h.nonempty
      omega
    exact hone ▸ h
  | succ fuel ih =>
    rw [BinarySearch.narrow]
    split_ifs with hsize
    · have hone : size = 1 := by
        have := h.nonempty
        omega
      exact hone ▸ h
    · have hin := h.inside
      have hmid : base + size / 2 < l.length := by omega
      have hget : l[base + size / 2]? = some l[base + size / 2] := List.getElem?_eq_getElem hmid
      refine ih (by omega) ?_
      simp only [hget, Option.any_some, decide_eq_true_eq]
      split_ifs with hgreater
      · refine ⟨by omega, by omega, h.below, fun i a hi ha => ?_⟩
        obtain ⟨hlt, rfl⟩ := List.getElem?_eq_some_iff.mp ha
        rcases Nat.lt_or_eq_of_le (by omega : base + size / 2 ≤ i) with hlater | heq
        · exact hgreater.trans_le (List.pairwise_iff_getElem.mp hsorted _ _ hmid hlt hlater)
        · simp only [← heq]
          exact hgreater
      · refine ⟨by omega, by omega, Or.inr ⟨_, hget, not_lt.mp hgreater⟩, fun i a hi ha => ?_⟩
        exact h.above i a (by omega) ha

/-- The first window is the whole list. -/
theorem window_search (hsorted : l.Pairwise fun a b => key a ≤ key b) (hne : l ≠ []) :
    Window key l k 1 (narrow key l k l.length l.length 0) := by
  have hpos : 0 < l.length := List.length_pos_of_ne_nil hne
  refine Window.narrow hsorted (Nat.le_succ _) ⟨hpos, by omega, Or.inl rfl, fun i a hi ha => ?_⟩
  rw [List.getElem?_eq_none (by omega)] at ha
  cases ha

/-- The key is found where it is. -/
theorem search_ok {i : ℕ} (h : search key l k = .ok i) :
    ∃ before a after, l = before ++ a :: after ∧ before.length = i ∧ key a = k := by
  simp only [search] at h
  set base := narrow key l k l.length l.length 0
  split at h
  · cases h
  · rename_i a ha
    split_ifs at h with hkey
    obtain ⟨hlt, rfl⟩ := List.getElem?_eq_some_iff.mp ha
    rw [Except.ok.injEq] at h
    refine ⟨l.take base, l[base], l.drop (base + 1), ?_, ?_, hkey⟩
    · rw [← List.drop_eq_getElem_cons hlt, List.take_append_drop]
    · rw [List.length_take_of_le (Nat.le_of_lt hlt), h]

/-- A missing key belongs between the smaller and the greater ones. -/
theorem search_error (hsorted : l.Pairwise fun a b => key a < key b) {i : ℕ}
    (h : search key l k = .error i) :
    ∃ before after, l = before ++ after ∧ before.length = i ∧
      (∀ a ∈ before, key a < k) ∧ ∀ a ∈ after, k < key a := by
  by_cases hempty : l = []
  · subst hempty
    refine ⟨[], [], rfl, ?_, by simp, by simp⟩
    simp only [search, List.getElem?_nil] at h
    cases h
    rfl
  have hwindow : Window key l k 1 (narrow key l k l.length l.length 0) :=
    window_search (hsorted.imp le_of_lt) hempty
  simp only [search] at h
  set base := narrow key l k l.length l.length 0 with hbase
  have hlt : base < l.length := by
    have := hwindow.inside
    omega
  rw [List.getElem?_eq_getElem hlt] at h
  simp only at h
  split_ifs at h with hkey hless
  · cases h
    refine ⟨l.take (base + 1), l.drop (base + 1), (List.take_append_drop _ l).symm,
      List.length_take_of_le hlt, fun a ha => ?_, fun a ha => ?_⟩
    · obtain ⟨j, hj, rfl⟩ := List.mem_take_iff_getElem.mp ha
      rcases Nat.lt_or_eq_of_le (by omega : j ≤ base) with hbefore | rfl
      · exact (List.pairwise_iff_getElem.mp hsorted _ _ (by omega) hlt hbefore).trans hless
      · exact hless
    · obtain ⟨j, hj, rfl⟩ := List.mem_drop_iff_getElem.mp ha
      exact hwindow.above _ _ (by omega) (List.getElem?_eq_getElem (by omega))
  · rw [Except.error.injEq] at h
    have hgreater : k < key l[base] := lt_of_le_of_ne (not_lt.mp hless) (Ne.symm hkey)
    have hzero : base = 0 := hwindow.below.resolve_right fun ⟨a, ha, hle⟩ => by
      rw [List.getElem?_eq_getElem hlt] at ha
      cases ha
      exact absurd hle (not_le.mpr hgreater)
    refine ⟨[], l, rfl, hzero.symm.trans h, by simp, fun a ha => ?_⟩
    obtain ⟨j, hj, rfl⟩ := List.mem_iff_getElem.mp ha
    rcases Nat.eq_zero_or_pos j with rfl | hpos
    · simpa only [hzero] using hgreater
    · have hlater := List.pairwise_iff_getElem.mp hsorted base j hlt hj (by omega)
      exact hgreater.trans hlater

theorem lt_partitionPoint {p : α → Bool} (hp : l.Pairwise fun a b => p b = true → p a = true)
    {i : ℕ} (hi : i < l.length) : i < partitionPoint p l ↔ p l[i] = true := by
  have hsorted : l.Pairwise fun a b => (!p a) ≤ (!p b) := by
    refine hp.imp fun {a b} h => ?_
    cases hb : p b with
    | false => exact Bool.le_true _
    | true => rw [h hb]
  have hwindow : Window (fun a => !p a) l false 1
      (narrow (fun a => !p a) l false l.length l.length 0) :=
    window_search hsorted (List.ne_nil_of_length_pos (by omega))
  simp only [partitionPoint]
  set base := narrow (fun a => !p a) l false l.length l.length 0
  have hlt : base < l.length := by
    have := hwindow.inside
    omega
  have habove : base < i → p l[i] = false := fun h => by
    have hgreater := hwindow.above i l[i] (by omega) (List.getElem?_eq_getElem hi)
    simpa using (Bool.lt_iff.mp hgreater).2
  simp only [List.getElem?_eq_getElem hlt]
  split_ifs with hbase
  · constructor
    · intro h
      rcases Nat.lt_or_eq_of_le (Nat.le_of_lt_succ h) with hbefore | rfl
      · exact List.pairwise_iff_getElem.mp hp i base hi hlt hbefore hbase
      · exact hbase
    · intro h
      by_contra hge
      rw [habove (by omega)] at h
      cases h
  · have hzero : base = 0 := hwindow.below.resolve_right fun ⟨a, ha, hle⟩ => by
      rw [List.getElem?_eq_getElem hlt, Option.some.injEq] at ha
      subst ha
      rw [Bool.eq_false_iff.mpr hbase] at hle
      exact absurd hle (by decide)
    constructor
    · omega
    · intro h
      rcases Nat.eq_zero_or_pos i with rfl | hpos
      · simp only [hzero] at hbase
        exact absurd h hbase
      · rw [habove (by omega)] at h
        cases h

theorem partitionPoint_le (p : α → Bool) (l : List α) : partitionPoint p l ≤ l.length := by
  simp only [partitionPoint]
  split
  · exact Nat.zero_le _
  · rename_i a ha
    obtain ⟨hlt, -⟩ := List.getElem?_eq_some_iff.mp ha
    split_ifs <;> omega

end BinarySearch
