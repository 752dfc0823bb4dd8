import Walgit.Stripes

/-!
# Windows over blocks

A list is kept in blocks of one size. A stretch of it is put together from the parts of the
blocks it touches: the end of the first, whole ones, and the start of the last.
-/
namespace Stripes

variable {α : Type} {l : List α} {step off stop : ℕ}

def block (step : ℕ) (l : List α) (n : ℕ) : List α := slice l (n * step, n * step + step)

/-- How many blocks a stretch touches that is not empty. -/
def touched (step off stop : ℕ) : ℕ := (stop - 1) / step + 1 - off / step

/-- What a stretch has in common with a block. -/
def window (step off stop n : ℕ) : ℕ × ℕ := (max off (n * step), min stop (n * step + step))

theorem length_block (n : ℕ) : (block step l n).length = min step (l.length - n * step) := by
  rw [block, length_slice]
  omega

theorem slice_slice (x y a b : ℕ) :
    slice (slice l (x, y)) (a, b) = slice l (x + a, min (x + b) y) := by
  simp only [slice, List.take_drop, List.drop_drop, List.take_take]

theorem slice_min (a b : ℕ) : slice l (a, min b l.length) = slice l (a, b) := by
  have htake : l.take (min b l.length) = l.take b := by
    rw [List.take_eq_take_iff]
    omega
  rw [slice, slice, htake]

theorem slice_take (m a b : ℕ) : slice (l.take m) (a, b) = slice l (a, min b m) := by
  rw [slice, slice, List.take_take]

theorem block_eq_nil {n : ℕ} (h : l.length ≤ n * step) : block step l n = [] := by
  rw [← List.length_eq_zero_iff, length_block]
  omega

section Stretch

variable (hstep : 0 < step) (h : off < stop)

include hstep h

theorem touched_bounds {i : ℕ} (hi : i < touched step off stop) :
    (off / step + i) * step < stop ∧ off < (off / step + i) * step + step := by
  have hlast : off / step + i ≤ (stop - 1) / step := by
    rw [touched] at hi
    omega
  have hend := (Nat.le_div_iff_mul_le hstep).mp hlast
  have hoff := Nat.lt_div_mul_add hstep (a := off)
  rw [Nat.add_mul] at hend ⊢
  omega

theorem tiles_windows_of_le {k : ℕ} (hk : k ≤ touched step off stop) :
    Tiles off (max off (min stop ((off / step + k) * step)))
      ((List.range k).map fun i => window step off stop (off / step + i)) := by
  induction k with
  | zero =>
    have hfirst := Nat.div_mul_le_self off step
    simp only [Tiles, List.range_zero, List.map_nil, Nat.add_zero]
    omega
  | succ k ih =>
    obtain ⟨hstart, hend⟩ := touched_bounds hstep h hk
    rw [List.range_succ, List.map_append]
    refine tiles_append (ih (by omega)) ?_
    rw [← Nat.add_assoc, Nat.succ_mul]
    simp only [List.map_cons, List.map_nil, Tiles, window]
    omega

/-- The windows of the blocks that a stretch touches tile it. -/
theorem tiles_windows :
    Tiles off stop ((List.range (touched step off stop)).map fun i =>
      window step off stop (off / step + i)) := by
  have htiles := tiles_windows_of_le hstep h (Nat.le_refl (touched step off stop))
  have hlast := Nat.lt_div_mul_add hstep (a := stop - 1)
  have hle : off / step ≤ (stop - 1) / step := Nat.div_le_div_right (by omega)
  have hcount : off / step + touched step off stop = (stop - 1) / step + 1 := by
    rw [touched]
    omega
  rw [hcount, Nat.succ_mul] at htiles
  rwa [Nat.min_eq_left (by omega), Nat.max_eq_right (by omega)] at htiles

/-- The part that a stretch takes of a block is its window. -/
theorem slice_window {i : ℕ} (hi : i < touched step off stop) :
    slice (block step l (off / step + i)) (off - (off / step + i) * step,
        min (stop - (off / step + i) * step) (block step l (off / step + i)).length) =
      slice l (window step off stop (off / step + i)) := by
  obtain ⟨hstart, hend⟩ := touched_bounds hstep h hi
  rw [slice_min, block, slice_slice, window]
  congr 2 <;> omega

/-- The parts of the blocks, put together, are the stretch. -/
theorem flatten_windows :
    ((List.range (touched step off stop)).map fun i =>
      slice l (window step off stop (off / step + i))).flatten = slice l (off, stop) := by
  have hflatten := (flatten_tiles (l := l) (tiles_windows hstep h)).2
  rwa [List.map_map] at hflatten

end Stretch

/-- Within a list that is long enough, the first of several blocks is whole. -/
theorem window_inside {i : ℕ} (hstep : 0 < step) (h : off < stop) (hi : i < touched step off stop)
    (hmany : 1 < touched step off stop) (hlong : (stop - 1) / step * step ≤ l.length) :
    off - (off / step + i) * step ≤ min (stop - (off / step + i) * step)
      (block step l (off / step + i)).length := by
  obtain ⟨hstart, -⟩ := touched_bounds hstep h hi
  have hoff := Nat.lt_div_mul_add hstep (a := off)
  have hlast : off / step + 1 ≤ (stop - 1) / step := by
    rw [touched] at hmany
    omega
  have hwhole := Nat.mul_le_mul_right step hlast
  rw [length_block]
  cases i with
  | zero =>
    rw [Nat.add_zero] at hstart ⊢
    rw [Nat.succ_mul] at hwhole
    omega
  | succ i =>
    have hlater : (off / step + 1) * step ≤ (off / step + (i + 1)) * step :=
      Nat.mul_le_mul_right step (by omega)
    rw [Nat.succ_mul] at hlater
    omega

end Stripes
