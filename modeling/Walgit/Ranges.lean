import Mathlib.Data.List.Basic
import Mathlib.Tactic.SplitIfs
import Mathlib.Tactic.Set

/-!
# Ranges of a list

Several conditions, each of them met exactly in one range of a list. Taking the ranges in the
order of their starts, without what was already taken, gives what a filter by all conditions
gives.
-/
namespace Ranges

variable {α : Type} {l : List α}

/-- `slice::get` with a range. -/
def slice (l : List α) (a b : ℕ) : Option (List α) :=
  if a ≤ b ∧ b ≤ l.length then some ((l.take b).drop a) else none

/-- Takes what a range has beyond the cursor. -/
def join (l : List α) (acc : List α × ℕ) (range : ℕ × ℕ) : Option (List α × ℕ) :=
  let a := max range.1 acc.2
  if a < range.2 then (slice l a range.2).map fun part => (acc.1 ++ part, range.2) else some acc

def merge (l : List α) (ranges : List (ℕ × ℕ)) : Option (List α) :=
  (ranges.foldlM (join l) ([], 0)).map Prod.fst

/-- The range is where the condition holds. -/
structure Selects (l : List α) (p : α → Bool) (range : ℕ × ℕ) : Prop where
  le_length : range.2 ≤ l.length
  mem : ∀ i (h : i < l.length), p l[i] = true ↔ range.1 ≤ i ∧ i < range.2

/-- What was taken is what the filter gives. Nothing after the cursor is in it, and everything
from the last start up to the cursor is. -/
structure Joined (l : List α) (q : α → Bool) (start : ℕ) (acc : List α × ℕ) : Prop where
  taken : acc.1 = l.filter q
  after : ∀ i (h : i < l.length), acc.2 ≤ i → q l[i] = false
  inside : ∀ i (h : i < l.length), start ≤ i → i < acc.2 → q l[i] = true

theorem joined_nil (l : List α) : Joined l (fun _ => false) 0 ([], 0) :=
  ⟨by simp, by simp, by simp⟩

/-- A filter of the three parts of a list. -/
theorem filter_parts (q : α → Bool) (l : List α) {a b : ℕ} (h : a ≤ b) :
    l.filter q =
      (l.take a).filter q ++ (((l.take b).drop a).filter q ++ (l.drop b).filter q) := by
  have htake : l.take a = (l.take b).take a := by rw [List.take_take, Nat.min_eq_left h]
  rw [← List.append_assoc, ← List.filter_append, htake, List.take_append_drop,
    ← List.filter_append, List.take_append_drop]

theorem filter_slice_eq_self {q : α → Bool} {a b : ℕ}
    (h : ∀ i (_ : i < l.length), a ≤ i → i < b → q l[i] = true) :
    ((l.take b).drop a).filter q = (l.take b).drop a := by
  refine List.filter_eq_self.mpr fun x hx => ?_
  obtain ⟨i, hi, rfl⟩ := List.mem_drop_iff_getElem.mp hx
  rw [List.length_take] at hi
  rw [List.getElem_take]
  exact h _ _ (by omega) (by omega)

theorem filter_slice_eq_nil {q : α → Bool} {a b : ℕ}
    (h : ∀ i (_ : i < l.length), a ≤ i → q l[i] = false) :
    ((l.take b).drop a).filter q = [] := by
  refine List.filter_eq_nil_iff.mpr fun x hx => ?_
  obtain ⟨i, hi, rfl⟩ := List.mem_drop_iff_getElem.mp hx
  rw [List.length_take] at hi
  rw [List.getElem_take, h _ _ (by omega)]
  exact Bool.false_ne_true

theorem filter_drop_eq_nil {q : α → Bool} {b : ℕ}
    (h : ∀ i (_ : i < l.length), b ≤ i → q l[i] = false) : (l.drop b).filter q = [] := by
  refine List.filter_eq_nil_iff.mpr fun x hx => ?_
  obtain ⟨i, hi, rfl⟩ := List.mem_drop_iff_getElem.mp hx
  rw [h _ _ (by omega)]
  exact Bool.false_ne_true

/-- A range that does not start before the last one is joined to what was taken. -/
theorem Joined.join {q p : α → Bool} {start : ℕ} {acc : List α × ℕ} (h : Joined l q start acc)
    {range : ℕ × ℕ} (hp : Selects l p range) (hstart : start ≤ range.1) :
    ∃ acc', Ranges.join l acc range = some acc' ∧
      Joined l (fun x => q x || p x) range.1 acc' := by
  have hbefore : ∀ i (hi : i < l.length), i < max range.1 acc.2 → p l[i] = true →
      q l[i] = true := by
    intro i hi hlt hpi
    have := (hp.mem i hi).mp hpi
    exact h.inside i hi (by omega) (by omega)
  have hbeyond : ∀ i (hi : i < l.length), max range.1 acc.2 ≤ i → q l[i] = false :=
    fun i hi hle => h.after i hi (by omega)
  have hend : ∀ i (hi : i < l.length), max acc.2 range.2 ≤ i → (q l[i] || p l[i]) = false := by
    intro i hi hle
    rw [h.after i hi (by omega), Bool.false_or, Bool.eq_false_iff]
    intro hpi
    have := (hp.mem i hi).mp hpi
    omega
  unfold Ranges.join
  dsimp only
  set a := max range.1 acc.2 with ha
  split_ifs with hlt
  · have hslice : slice l a range.2 = some ((l.take range.2).drop a) :=
      if_pos ⟨Nat.le_of_lt hlt, hp.le_length⟩
    refine ⟨_, by rw [hslice, Option.map_some], ?_, fun i hi hle => hend i hi (by omega),
      fun i hi hge hlt' => ?_⟩
    · have hhead : (l.take a).filter (fun x => q x || p x) = (l.take a).filter q := by
        refine List.filter_congr fun x hx => ?_
        obtain ⟨i, hi, rfl⟩ := List.mem_take_iff_getElem.mp hx
        cases hq : q l[i] with
        | true => rfl
        | false =>
          rw [Bool.false_or, Bool.eq_false_iff]
          intro hpi
          rw [hbefore i (by omega) (by omega) hpi] at hq
          cases hq
      rw [h.taken, filter_parts q l (Nat.le_of_lt hlt), filter_slice_eq_nil hbeyond,
        filter_drop_eq_nil fun i hi hle => hbeyond i hi (by omega), List.append_nil,
        List.append_nil, filter_parts (fun x => q x || p x) l (Nat.le_of_lt hlt), hhead,
        filter_slice_eq_self, filter_drop_eq_nil fun i hi hle => hend i hi (by omega),
        List.append_nil]
      intro i hi hge hlt'
      rw [(hp.mem i hi).mpr ⟨by omega, hlt'⟩, Bool.or_true]
    · rw [(hp.mem i hi).mpr ⟨hge, hlt'⟩, Bool.or_true]
  · refine ⟨acc, rfl, ?_, fun i hi hle => ?_, fun i hi hge hlt' => ?_⟩
    · rw [h.taken]
      refine List.filter_congr fun x hx => ?_
      obtain ⟨i, hi, rfl⟩ := List.mem_iff_getElem.mp hx
      cases hq : q l[i] with
      | true => rfl
      | false =>
        symm
        rw [Bool.false_or, Bool.eq_false_iff]
        intro hpi
        have := (hp.mem i hi).mp hpi
        rw [hbefore i hi (by omega) hpi] at hq
        cases hq
    · rcases Nat.lt_or_ge i range.2 with hinside | houtside
      · rw [h.after i hi hle, Bool.false_or, Bool.eq_false_iff]
        intro hpi
        have := (hp.mem i hi).mp hpi
        omega
      · exact hend i hi (by omega)
    · rw [h.inside i hi (by omega) hlt', Bool.true_or]

/-- Ranges in the order of their starts are joined one after the other. -/
theorem Joined.foldlM {ι : Type} {m : ι → α → Bool} {range : ι → ℕ × ℕ} {ps : List ι}
    (hp : ∀ p ∈ ps, Selects l (m p) (range p))
    (hsorted : ps.Pairwise fun p p' => (range p).1 ≤ (range p').1) {q : α → Bool} {start : ℕ}
    {acc : List α × ℕ} (h : Joined l q start acc) (hstart : ∀ p ∈ ps, start ≤ (range p).1) :
    ∃ acc' last, (ps.map range).foldlM (Ranges.join l) acc = some acc' ∧
      Joined l (fun x => q x || ps.any fun p => m p x) last acc' := by
  induction ps generalizing q start acc with
  | nil => exact ⟨acc, start, rfl, by simpa using h⟩
  | cons p ps ih =>
    rw [List.pairwise_cons] at hsorted
    obtain ⟨acc', hjoin, hacc'⟩ := h.join (hp p List.mem_cons_self) (hstart p List.mem_cons_self)
    obtain ⟨acc'', last, hrest, hacc''⟩ := ih (fun p' h' => hp p' (List.mem_cons_of_mem _ h'))
      hsorted.2 hacc' hsorted.1
    refine ⟨acc'', last, ?_, ?_⟩
    · rw [List.map_cons, List.foldlM_cons, hjoin]
      exact hrest
    · simpa only [List.any_cons, Bool.or_assoc] using hacc''

/-- The ranges of several conditions are merged to what a filter by all of them gives. -/
theorem merge_eq_filter {ι : Type} {m : ι → α → Bool} {range : ι → ℕ × ℕ} {ps : List ι}
    (hp : ∀ p ∈ ps, Selects l (m p) (range p))
    (hsorted : ps.Pairwise fun p p' => (range p).1 ≤ (range p').1) :
    merge l (ps.map range) = some (l.filter fun x => ps.any fun p => m p x) := by
  obtain ⟨acc, last, hfold, hacc⟩ :=
    (joined_nil l).foldlM hp hsorted fun p _ => Nat.zero_le _
  rw [merge, hfold, Option.map_some, hacc.taken]
  simp only [Bool.false_or]

/-- The ranges joined without looking whether they lie in the list. -/
theorem foldl_of_foldlM {ranges : List (ℕ × ℕ)} {acc acc' : List α × ℕ}
    (h : ranges.foldlM (join l) acc = some acc') :
    ranges.foldl (fun (acc : List α × ℕ) range =>
      let a := max range.1 acc.2
      if a < range.2 then (acc.1 ++ (l.drop a).take (range.2 - a), range.2) else acc) acc =
        acc' := by
  induction ranges generalizing acc with
  | nil => exact Option.some.inj h
  | cons range ranges ih =>
    rw [List.foldlM_cons] at h
    obtain ⟨acc'', hjoin, hrest⟩ := Option.bind_eq_some_iff.mp h
    rw [List.foldl_cons, ← ih hrest]
    congr 1
    simp only [join] at hjoin ⊢
    split_ifs at hjoin ⊢ with hlt
    · obtain ⟨part, hpart, rfl⟩ := Option.map_eq_some_iff.mp hjoin
      rw [slice] at hpart
      split_ifs at hpart
      rw [← Option.some.inj hpart, List.drop_take]
    · exact Option.some.inj hjoin

/-- The places at which a condition has held from the start. -/
theorem lt_length_takeWhile {p : α → Bool} {i : ℕ} :
    i < (l.takeWhile p).length ↔
      i < l.length ∧ ∀ j (h : j < l.length), j ≤ i → p l[j] = true := by
  induction l generalizing i with
  | nil => simp
  | cons a l ih =>
    by_cases ha : p a = true
    · rw [List.takeWhile_cons_of_pos ha]
      cases i with
      | zero =>
        refine iff_of_true (Nat.zero_lt_succ _) ⟨Nat.zero_lt_succ _, fun j hj hle => ?_⟩
        obtain rfl := Nat.le_zero.mp hle
        exact ha
      | succ i =>
        simp only [List.length_cons, Nat.add_lt_add_iff_right, ih]
        refine and_congr_right fun _ => ⟨fun h j hj hle => ?_, fun h j hj hle => ?_⟩
        · cases j with
          | zero => exact ha
          | succ j => exact h j (by omega) (by omega)
        · exact h (j + 1) (by omega) (by omega)
    · rw [List.takeWhile_cons_of_neg ha]
      refine iff_of_false (by simp) fun h => ha ?_
      exact h.2 0 (by simp) (Nat.zero_le _)

end Ranges
