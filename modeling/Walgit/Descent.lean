import Mathlib.Data.Nat.Notation
import Mathlib.Tactic.SplitIfs
import Mathlib.Tactic.Common

/-!
# Descending to a fixpoint

A function that only ever goes down is applied until nothing changes. If it is monotone, the
place where it stops is the greatest fixpoint below the start, whatever the number of steps.
-/
namespace Descent

variable {α : Type*} [DecidableEq α] (f : α → α)

/-- Applies `f` until it changes nothing, at most `n` times. -/
def settle : ℕ → α → α
  | 0, x => x
  | n + 1, x => if f x = x then x else settle n (f x)

variable {f}

attribute [local simp] settle

/-- A measure that each real step decreases bounds the steps. -/
theorem settle_fixed {μ : α → ℕ} (hμ : ∀ x, f x ≠ x → μ (f x) < μ x) {n : ℕ} {x : α}
    (h : μ x < n) : f (settle f n x) = settle f n x := by
  induction n generalizing x with
  | zero => omega
  | succ n ih =>
    simp only [settle]
    split_ifs with hfix
    · exact hfix
    · have := hμ x hfix
      exact ih (by omega)

theorem settle_of_fixed {x : α} (h : f x = x) (n : ℕ) : settle f n x = x := by
  cases n with
  | zero => rfl
  | succ n => simp [h]

/-- Once the steps suffice, more of them change nothing. -/
theorem settle_add {μ : α → ℕ} (hμ : ∀ x, f x ≠ x → μ (f x) < μ x) {n : ℕ} {x : α}
    (h : μ x < n) (k : ℕ) : settle f (n + k) x = settle f n x := by
  induction n generalizing x with
  | zero => omega
  | succ n ih =>
    rw [Nat.add_right_comm]
    simp only [settle]
    split_ifs with hfix
    · rfl
    · have := hμ x hfix
      exact ih (by omega)

variable {le : α → α → Prop}

theorem settle_le (hrefl : ∀ x, le x x) (htrans : ∀ x y z, le x y → le y z → le x z)
    (hle : ∀ x, le (f x) x) (n : ℕ) (x : α) : le (settle f n x) x := by
  induction n generalizing x with
  | zero => exact hrefl x
  | succ n ih =>
    simp only [settle]
    split_ifs
    · exact hrefl x
    · exact htrans _ _ _ (ih (f x)) (hle x)

/-- No fixpoint below the start is passed on the way down. -/
theorem le_settle (hmono : ∀ x y, le x y → le (f x) (f y)) {x y : α} (hy : f y = y) (h : le y x)
    (n : ℕ) : le y (settle f n x) := by
  induction n generalizing x with
  | zero => exact h
  | succ n ih =>
    simp only [settle]
    split_ifs
    · exact h
    · have hstep := hmono y x h
      rw [hy] at hstep
      exact ih hstep

/-- Two descents that correspond step by step end at corresponding places. -/
theorem settle_rel {β : Type*} [DecidableEq β] {g : β → β} {R : α → β → Prop}
    (hstep : ∀ x y, R x y → R (f x) (g y)) (hfix : ∀ x y, R x y → (f x = x ↔ g y = y)) {x : α}
    {y : β} (h : R x y) (n : ℕ) : R (settle f n x) (settle g n y) := by
  induction n generalizing x y with
  | zero => exact h
  | succ n ih =>
    simp only [settle, hfix x y h]
    split_ifs
    · exact h
    · exact ih (hstep x y h)

end Descent
