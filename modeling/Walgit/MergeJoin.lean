import Mathlib.Data.List.Basic
import Mathlib.Tactic.ByCases

/-!
# Merge joins

Two lists in the order of a key, walked side by side: a key of both is one step, any other is a
step of its own.
-/
namespace MergeJoin

section Join

variable {α : Type} (cmp : α → α → Ordering)

/-- An element against a list: whatever comes before it stands alone. -/
def joinOne (x : α) (rest : List α → List (Option α × Option α)) :
    List α → List (Option α × Option α)
  | [] => (some x, none) :: rest []
  | y :: ys =>
    match cmp x y with
    | .lt => (some x, none) :: rest (y :: ys)
    | .eq => (some x, some y) :: rest ys
    | .gt => (none, some y) :: joinOne x rest ys

def join : List α → List α → List (Option α × Option α)
  | [], ys => ys.map fun y => (none, some y)
  | x :: xs, ys => joinOne cmp x (join xs) ys

end Join

section Paired

variable {α κ : Type} (key : α → κ)

/-- A key on both sides, or one that only one side has. -/
def Paired (xs ys : List α) : Option α × Option α → Prop
  | (some x, some y) => x ∈ xs ∧ y ∈ ys ∧ key x = key y
  | (some x, none) => x ∈ xs ∧ ∀ y ∈ ys, key y ≠ key x
  | (none, some y) => y ∈ ys ∧ ∀ x ∈ xs, key x ≠ key y
  | (none, none) => False

variable {key} {xs ys : List α} {p : Option α × Option α}

theorem paired_nil : Paired key [] ys p ↔ p ∈ ys.map fun y => ((none : Option α), some y) := by
  rcases p with ⟨_ | a, _ | b⟩ <;> simp [Paired]

theorem paired_left {x : α} (h : ∀ y ∈ ys, key y ≠ key x) :
    Paired key (x :: xs) ys p ↔ p = (some x, none) ∨ Paired key xs ys p := by
  rcases p with ⟨_ | a, _ | b⟩ <;> simp only [Paired, Prod.mk.injEq, List.mem_cons] <;> grind

theorem paired_right {y : α} (h : ∀ x ∈ xs, key x ≠ key y) :
    Paired key xs (y :: ys) p ↔ p = (none, some y) ∨ Paired key xs ys p := by
  rcases p with ⟨_ | a, _ | b⟩ <;> simp only [Paired, Prod.mk.injEq, List.mem_cons] <;> grind

theorem paired_both {x y : α} (hkey : key x = key y) (hx : ∀ a ∈ xs, key a ≠ key x)
    (hy : ∀ b ∈ ys, key b ≠ key y) :
    Paired key (x :: xs) (y :: ys) p ↔ p = (some x, some y) ∨ Paired key xs ys p := by
  rcases p with ⟨_ | a, _ | b⟩ <;> simp only [Paired, Prod.mk.injEq, List.mem_cons] <;> grind

end Paired

section Sorted

variable {α κ : Type} [Ord κ] [Std.TransOrd κ] [Std.LawfulEqOrd κ] {key : α → κ}
variable {cmp : α → α → Ordering}

/-- In the order of the key, each key once. -/
def Sorted (key : α → κ) (xs : List α) : Prop :=
  xs.Pairwise fun a b => compare (key a) (key b) = .lt

omit [Std.TransOrd κ] in
theorem ne_of_lt {a b : κ} (h : compare a b = .lt) : a ≠ b := by
  rintro rfl
  rw [Std.ReflOrd.compare_self] at h
  cases h

/-- A join of sorted lists has each key of either, with both sides where both have it. -/
theorem mem_join {xs ys : List α}
    (hcmp : ∀ x ∈ xs, ∀ y ∈ ys, cmp x y = compare (key x) (key y)) (hxs : Sorted key xs)
    (hys : Sorted key ys) (p : Option α × Option α) :
    p ∈ join cmp xs ys ↔ Paired key xs ys p := by
  induction xs generalizing ys with
  | nil => exact paired_nil.symm
  | cons x xs ih =>
    obtain ⟨hx, hxs⟩ := List.pairwise_cons.mp hxs
    have hxne : ∀ a ∈ xs, key a ≠ key x := fun a ha => (ne_of_lt (hx a ha)).symm
    rw [join]
    induction ys with
    | nil =>
      rw [joinOne, List.mem_cons, paired_left (by simp), ih (by simp) hxs hys]
    | cons y ys ihy =>
      obtain ⟨hy, hys'⟩ := List.pairwise_cons.mp hys
      have hyne : ∀ b ∈ ys, key b ≠ key y := fun b hb => (ne_of_lt (hy b hb)).symm
      have hrest : ∀ a ∈ xs, ∀ b ∈ y :: ys, cmp a b = compare (key a) (key b) :=
        fun a ha => hcmp a (List.mem_cons_of_mem x ha)
      have htail : ∀ a ∈ x :: xs, ∀ b ∈ ys, cmp a b = compare (key a) (key b) :=
        fun a ha b hb => hcmp a ha b (List.mem_cons_of_mem y hb)
      rw [joinOne, hcmp x List.mem_cons_self y List.mem_cons_self]
      cases hxy : compare (key x) (key y) with
      | lt =>
        -- Before the first key of the other side, so before all of them.
        have hnone : ∀ b ∈ y :: ys, key b ≠ key x := by
          rw [List.forall_mem_cons]
          exact ⟨(ne_of_lt hxy).symm,
            fun b hb => (ne_of_lt (Std.TransCmp.lt_trans hxy (hy b hb))).symm⟩
        rw [List.mem_cons, paired_left hnone, ih hrest hxs hys]
      | eq =>
        have hkey : key x = key y := Std.LawfulEqCmp.eq_of_compare hxy
        rw [List.mem_cons, paired_both hkey hxne hyne,
          ih (fun a ha b hb => hrest a ha b (List.mem_cons_of_mem y hb)) hxs hys']
      | gt =>
        have hyx : compare (key y) (key x) = .lt := Std.OrientedCmp.lt_of_gt hxy
        have hnone : ∀ a ∈ x :: xs, key a ≠ key y := by
          rw [List.forall_mem_cons]
          exact ⟨(ne_of_lt hyx).symm,
            fun a ha => (ne_of_lt (Std.TransCmp.lt_trans hyx (hx a ha))).symm⟩
        rw [List.mem_cons, paired_right hnone]
        exact or_congr_right (ihy htail hys')

end Sorted

end MergeJoin
