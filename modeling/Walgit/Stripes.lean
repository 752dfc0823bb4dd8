import Mathlib.Algebra.Group.Nat.Defs
import Mathlib.Data.List.Basic
import Mathlib.Data.Nat.Notation
import Mathlib.Tactic.Common

/-!
# Stripes

A length is cut into ranges of one size, the last of them shorter where it has to be. The same
ranges cut a list into consecutive parts.
-/
namespace Stripes

/-- How many ranges there are: `n.div_ceil(step)`. -/
def count (n step : ℕ) : ℕ := (n + step - 1) / step

/-- `(0..n).step_by(step)`, each start with its end. -/
def stripes (n step : ℕ) : List (ℕ × ℕ) :=
  (List.range (count n step)).map fun i => (i * step, min (i * step + step) n)

/-- Consecutive ranges that are not empty, from `a` up to `b`. -/
def Tiles : ℕ → ℕ → List (ℕ × ℕ) → Prop
  | a, b, [] => a = b
  | a, b, r :: rs => r.1 = a ∧ r.1 < r.2 ∧ Tiles r.2 b rs

section Counts

variable {n step : ℕ}

@[simp] theorem length_stripes (n step : ℕ) : (stripes n step).length = count n step := by
  simp [stripes]

theorem getElem?_stripes (i : ℕ) : (stripes n step)[i]? =
    if i < count n step then some (i * step, min (i * step + step) n) else none := by
  rw [stripes, List.getElem?_map]
  split_ifs with h
  · simp [h]
  · simp [h]

theorem count_le_iff (hstep : 0 < step) {k : ℕ} : count n step ≤ k ↔ n ≤ k * step := by
  rw [count, ← Nat.lt_succ_iff, Nat.div_lt_iff_lt_mul hstep, Nat.succ_mul]
  omega

theorem lt_count_iff (hstep : 0 < step) {i : ℕ} : i < count n step ↔ i * step < n := by
  rw [← not_iff_not, Nat.not_lt, Nat.not_lt, count_le_iff hstep]

theorem count_pos (hstep : 0 < step) (hn : 0 < n) : 0 < count n step :=
  (lt_count_iff hstep).mpr (by omega)

end Counts

section Tiling

variable {n step : ℕ}

theorem tiles_append {a b c : ℕ} {rs ss : List (ℕ × ℕ)} (hrs : Tiles a b rs) (hss : Tiles b c ss) :
    Tiles a c (rs ++ ss) := by
  induction rs generalizing a with
  | nil => exact hrs ▸ hss
  | cons r rs ih => exact ⟨hrs.1, hrs.2.1, ih hrs.2.2⟩

theorem tiles_prefix (hstep : 0 < step) {k : ℕ} (hk : k ≤ count n step) :
    Tiles 0 (min (k * step) n) ((List.range k).map fun i => (i * step, min (i * step + step) n)) := by
  induction k with
  | zero => simp [Tiles]
  | succ k ih =>
    have hlt : k * step < n := (lt_count_iff hstep).mp hk
    rw [List.range_succ, List.map_append, Nat.succ_mul]
    refine tiles_append (ih (by omega)) ?_
    simp only [List.map_cons, List.map_nil, Tiles, and_true]
    omega

/-- The ranges tile the length. -/
theorem tiles_stripes (hstep : 0 < step) : Tiles 0 n (stripes n step) := by
  have hall : n ≤ count n step * step := (count_le_iff hstep).mp (Nat.le_refl _)
  have htiles := tiles_prefix (n := n) hstep (Nat.le_refl (count n step))
  rwa [Nat.min_eq_right hall] at htiles

end Tiling

section Cutting

variable {α : Type} {l : List α} {step : ℕ}

def slice (l : List α) (r : ℕ × ℕ) : List α := (l.take r.2).drop r.1

/-- The parts of a list: `chunks(step)`. -/
def cut (step : ℕ) (l : List α) : List (List α) := (stripes l.length step).map (slice l)

@[simp] theorem length_cut (step : ℕ) (l : List α) : (cut step l).length = count l.length step := by
  simp [cut]

theorem length_slice (r : ℕ × ℕ) : (slice l r).length = min r.2 l.length - r.1 := by
  rw [slice, List.length_drop, List.length_take]

theorem slice_append {a b c : ℕ} (hab : a ≤ b) (hbc : b ≤ c) :
    slice l (a, b) ++ slice l (b, c) = slice l (a, c) := by
  have htake : l.take b = (l.take c).take b := by rw [List.take_take, Nat.min_eq_left hbc]
  have hdrop : (l.take c).drop b = ((l.take c).drop a).drop (b - a) := by
    rw [List.drop_drop, Nat.add_sub_cancel' hab]
  simp only [slice]
  rw [htake, hdrop, List.drop_take, List.take_append_drop]

/-- Consecutive ranges put together the range they tile. -/
theorem flatten_tiles {rs : List (ℕ × ℕ)} {a b : ℕ} (h : Tiles a b rs) :
    a ≤ b ∧ (rs.map (slice l)).flatten = slice l (a, b) := by
  induction rs generalizing a with
  | nil =>
    obtain rfl : a = b := h
    exact ⟨Nat.le_refl a, by simp [slice]⟩
  | cons r rs ih =>
    obtain ⟨r₁, r₂⟩ := r
    obtain ⟨rfl, hlt, hrest⟩ := h
    obtain ⟨hle, hflatten⟩ := ih hrest
    refine ⟨by omega, ?_⟩
    rw [List.map_cons, List.flatten_cons, hflatten]
    exact slice_append (by omega) hle

/-- The parts of a list put together are the list. -/
theorem flatten_cut (hstep : 0 < step) (l : List α) : (cut step l).flatten = l := by
  rw [cut, (flatten_tiles (tiles_stripes hstep)).2]
  simp [slice]

theorem mem_stripes {n : ℕ} (hstep : 0 < step) {r : ℕ × ℕ} (h : r ∈ stripes n step) :
    r.1 < r.2 ∧ r.2 ≤ n ∧ r.2 ≤ r.1 + step := by
  obtain ⟨i, hi, rfl⟩ := List.mem_map.mp h
  have hlt := (lt_count_iff hstep).mp (List.mem_range.mp hi)
  dsimp only
  omega

/-- A part is not empty and not longer than the step. -/
theorem length_of_mem_cut (hstep : 0 < step) {part : List α} (h : part ∈ cut step l) :
    0 < part.length ∧ part.length ≤ step := by
  obtain ⟨r, hr, rfl⟩ := List.mem_map.mp h
  have hr := mem_stripes hstep hr
  rw [length_slice]
  omega

theorem cut_map {β : Type} (f : α → β) (l : List α) :
    cut step (l.map f) = (cut step l).map (List.map f) := by
  simp only [cut, List.length_map, List.map_map]
  refine List.map_congr_left fun r _ => ?_
  simp [slice, List.map_take, List.map_drop]

end Cutting

end Stripes
