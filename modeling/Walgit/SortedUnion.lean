import Mathlib.Data.List.Sort
import Mathlib.Data.List.TakeWhile
import Mathlib.Order.Defs.LinearOrder
import Mathlib.Tactic.SplitIfs

/-!
# The union of sorted lists

A priority queue holds one cursor for each list. The iterator pops the least one, puts the next
position of its list back and skips a value equal to the last one it returned. No set of the
values is ever built. A second walk finds the first value of one such stream that another lacks.
-/

namespace SortedUnion

/-- A position of one of the lists, with the value there. -/
structure Cursor (α : Type) where
  value : α
  list : ℕ
  position : ℕ
  deriving DecidableEq, Repr

end SortedUnion

open SortedUnion in
structure SortedUnion (α : Type) where
  lists : List (List α)
  /-- The queue, the least cursor first. -/
  cursors : List (Cursor α)
  previous : Option α
  deriving Repr

namespace SortedUnion

namespace Cursor

variable {α : Type} [LinearOrder α]

/-- The order of the queue: by value, then by list and position. -/
def le (c d : Cursor α) : Prop :=
  c.value < d.value ∨ c.value = d.value ∧
    (c.list < d.list ∨ c.list = d.list ∧ c.position ≤ d.position)

instance : DecidableRel (le (α := α)) := fun _ _ => inferInstanceAs (Decidable (_ ∨ _))

theorem le_value {c d : Cursor α} (h : c.le d) : c.value ≤ d.value := by
  rcases h with hlt | ⟨heq, -⟩
  · exact hlt.le
  · exact heq.le

instance : Std.Total (le (α := α)) where
  total c d := by
    simp only [le]
    rcases lt_trichotomy c.value d.value with h | h | h
    · exact Or.inl (Or.inl h)
    · rcases lt_trichotomy c.list d.list with hl | hl | hl
      · exact Or.inl (Or.inr ⟨h, Or.inl hl⟩)
      · rcases Nat.le_total c.position d.position with hp | hp
        · exact Or.inl (Or.inr ⟨h, Or.inr ⟨hl, hp⟩⟩)
        · exact Or.inr (Or.inr ⟨h.symm, Or.inr ⟨hl.symm, hp⟩⟩)
      · exact Or.inr (Or.inr ⟨h.symm, Or.inl hl⟩)
    · exact Or.inr (Or.inl h)

instance : IsTrans (Cursor α) le where
  trans c d e hcd hde := by
    rcases hcd with hcd | ⟨hcd, hcd'⟩
    · exact Or.inl (hcd.trans_le (le_value hde))
    · rcases hde with hde | ⟨hde, hde'⟩
      · exact Or.inl (hcd ▸ hde)
      · exact Or.inr ⟨hcd.trans hde, by omega⟩

end Cursor

variable {α : Type} [LinearOrder α]

/-- The value at a position of a list. -/
def at? (lists : List (List α)) (list position : ℕ) : Option α :=
  lists[list]?.bind fun l => l[position]?

def new (lists : List (List α)) : SortedUnion α where
  lists := lists
  cursors := (lists.zipIdx.filterMap fun p => p.1.head?.map fun a => ⟨a, p.2, 0⟩).insertionSort
    Cursor.le
  previous := none

/-- The least cursor is taken and the one after it in its list is put back. -/
def pop (u : SortedUnion α) : Option (α × SortedUnion α) :=
  match u.cursors with
  | [] => none
  | c :: cursors =>
    let cursors := match at? u.lists c.list (c.position + 1) with
      | some a => cursors.orderedInsert Cursor.le ⟨a, c.list, c.position + 1⟩
      | none => cursors
    some (c.value, { u with cursors := cursors })

/-- What the iterator returns, in order. -/
def collect : ℕ → SortedUnion α → List α
  | 0, _ => []
  | fuel + 1, u =>
    match u.pop with
    | none => []
    | some (a, u) =>
      if u.previous = some a then collect fuel u
      else a :: collect fuel { u with previous := some a }

/-- Each step consumes one position, so the number of positions bounds the steps. -/
def toList (lists : List (List α)) : List α := collect (lists.flatten.length + 1) (new lists)

/-- What the cursors have not passed yet. -/
def rest (u : SortedUnion α) : List α :=
  u.cursors.flatMap fun c => (u.lists[c.list]?.getD []).drop c.position

structure Inv (u : SortedUnion α) : Prop where
  sorted : u.cursors.Pairwise Cursor.le
  value : ∀ c ∈ u.cursors, at? u.lists c.list c.position = some c.value

omit [LinearOrder α] in
theorem drop_eq_cons {lists : List (List α)} {list position : ℕ} {a : α}
    (h : at? lists list position = some a) : (lists[list]?.getD []).drop position =
      a :: (lists[list]?.getD []).drop (position + 1) := by
  obtain ⟨l, hl, ha⟩ := Option.bind_eq_some_iff.mp h
  obtain ⟨hlt, hget⟩ := List.getElem?_eq_some_iff.mp ha
  rw [hl, Option.getD_some, List.drop_eq_getElem_cons hlt, hget]

omit [LinearOrder α] in
theorem drop_eq_nil {lists : List (List α)} {list position : ℕ}
    (h : at? lists list position = none) : (lists[list]?.getD []).drop position = [] := by
  cases hl : lists[list]? with
  | none => simp
  | some l =>
    simp only [at?, hl, Option.bind_some, List.getElem?_eq_none_iff] at h
    simpa using h

/-- A step moves one value from what is left to the output. -/
theorem Inv.pop {u v : SortedUnion α} {a : α} (h : u.Inv) (hpop : u.pop = some (a, v)) :
    v.Inv ∧ u.rest.Perm (a :: v.rest) ∧ v.lists = u.lists ∧ v.previous = u.previous := by
  unfold SortedUnion.pop at hpop
  cases hc : u.cursors with
  | nil => simp [hc] at hpop
  | cons c cursors =>
    simp only [hc, Option.some.injEq, Prod.mk.injEq] at hpop
    obtain ⟨rfl, rfl⟩ := hpop
    have hvalue := h.value
    have hsorted := h.sorted
    rw [hc] at hvalue hsorted
    rw [List.forall_mem_cons] at hvalue
    rw [List.pairwise_cons] at hsorted
    have hrest : u.rest = c.value :: ((u.lists[c.list]?.getD []).drop (c.position + 1) ++
        cursors.flatMap fun c => (u.lists[c.list]?.getD []).drop c.position) := by
      rw [rest, hc, List.flatMap_cons, drop_eq_cons hvalue.1, List.cons_append]
    rw [hrest]
    cases hnext : at? u.lists c.list (c.position + 1) with
    | none =>
      refine ⟨⟨hsorted.2, hvalue.2⟩, ?_, rfl, rfl⟩
      rw [drop_eq_nil hnext]
      exact List.Perm.refl _
    | some a =>
      set d : Cursor α := ⟨a, c.list, c.position + 1⟩
      have hperm := List.perm_orderedInsert Cursor.le d cursors
      refine ⟨⟨hsorted.2.orderedInsert d cursors, fun e he => ?_⟩, ?_, rfl, rfl⟩
      · rcases List.mem_cons.mp (hperm.mem_iff.mp he) with rfl | he
        · exact hnext
        · exact hvalue.2 e he
      · exact (hperm.flatMap_right fun c => (u.lists[c.list]?.getD []).drop c.position).symm.cons
          c.value

theorem rest_of_pop_eq_none {u : SortedUnion α} (hpop : u.pop = none) : u.rest = [] := by
  unfold SortedUnion.pop at hpop
  cases hc : u.cursors with
  | nil => rw [rest, hc, List.flatMap_nil]
  | cons c cursors => simp [hc] at hpop

/-- In sorted lists the popped value is the least one left. -/
theorem Inv.pop_le {u v : SortedUnion α} {a : α} (h : u.Inv)
    (hlists : ∀ l ∈ u.lists, l.Pairwise (· ≤ ·)) (hpop : u.pop = some (a, v)) :
    ∀ b ∈ v.rest, a ≤ b := by
  intro b hb
  have hleft : b ∈ u.rest := (h.pop hpop).2.1.mem_iff.mpr (List.mem_cons_of_mem a hb)
  unfold SortedUnion.pop at hpop
  cases hc : u.cursors with
  | nil => simp [hc] at hpop
  | cons c cursors =>
    simp only [hc, Option.some.injEq, Prod.mk.injEq] at hpop
    obtain ⟨rfl, -⟩ := hpop
    obtain ⟨d, hd, hbd⟩ := List.mem_flatMap.mp hleft
    have hsorted := h.sorted
    rw [hc, List.pairwise_cons] at hsorted
    have hcd : c.value ≤ d.value := by
      rcases List.mem_cons.mp (hc ▸ hd) with rfl | hd
      · exact le_rfl
      · exact Cursor.le_value (hsorted.1 d hd)
    have hdrop := drop_eq_cons (h.value d hd)
    obtain ⟨l, hl, -⟩ := Option.bind_eq_some_iff.mp (h.value d hd)
    have hpair : (l.drop d.position).Pairwise (· ≤ ·) :=
      (hlists l (List.mem_of_getElem? hl)).drop
    rw [hl, Option.getD_some] at hdrop hbd
    rw [hdrop, List.pairwise_cons] at hpair
    rw [hdrop] at hbd
    rcases List.mem_cons.mp hbd with rfl | hbd
    · exact hcd
    · exact hcd.trans (hpair.1 b hbd)

theorem Inv.setPrevious {u : SortedUnion α} (h : u.Inv) (previous : Option α) :
    Inv { u with previous := previous } := ⟨h.sorted, h.value⟩

/-- The iterator returns what is left, but for the value it returned last. -/
theorem mem_collect {fuel : ℕ} {u : SortedUnion α} (h : u.Inv) (hfuel : u.rest.length < fuel)
    {b : α} : (b ∈ collect fuel u → b ∈ u.rest) ∧
      (b ∈ u.rest → b ∈ collect fuel u ∨ u.previous = some b) := by
  induction fuel generalizing u with
  | zero => omega
  | succ fuel ih =>
    rw [collect]
    cases hpop : u.pop with
    | none => simp [rest_of_pop_eq_none hpop]
    | some r =>
      obtain ⟨a, v⟩ := r
      obtain ⟨hv, hperm, -, hprevious⟩ := h.pop hpop
      have hlength := hperm.length_eq
      rw [List.length_cons] at hlength
      simp only [hperm.mem_iff, List.mem_cons, hprevious]
      split_ifs with hsame
      · obtain ⟨hsound, hcomplete⟩ := ih hv (by omega)
        refine ⟨fun hb => Or.inr (hsound hb), fun hb => ?_⟩
        rcases hb with rfl | hb
        · exact Or.inr hsame
        · rw [← hprevious]
          exact hcomplete hb
      · obtain ⟨hsound, hcomplete⟩ := ih (hv.setPrevious (some a)) (by
          change v.rest.length < fuel
          omega)
        rw [List.mem_cons]
        refine ⟨fun hb => hb.imp_right hsound, fun hb => Or.inl ?_⟩
        rcases hb with rfl | hb
        · exact Or.inl rfl
        · rcases hcomplete hb with hin | heq
          · exact Or.inr hin
          · exact Or.inl (Option.some.inj heq).symm

/-- In sorted lists the iterator returns each value once, in order. -/
theorem collect_sorted {fuel : ℕ} {u : SortedUnion α} (h : u.Inv)
    (hlists : ∀ l ∈ u.lists, l.Pairwise (· ≤ ·)) (hfuel : u.rest.length < fuel)
    (hprevious : ∀ a, u.previous = some a → ∀ b ∈ u.rest, a ≤ b) :
    (collect fuel u).Pairwise (· < ·) ∧
      ∀ a, u.previous = some a → ∀ b ∈ collect fuel u, a < b := by
  induction fuel generalizing u with
  | zero => omega
  | succ fuel ih =>
    rw [collect]
    cases hpop : u.pop with
    | none => simp
    | some r =>
      obtain ⟨a, v⟩ := r
      obtain ⟨hv, hperm, hsame, hkept⟩ := h.pop hpop
      have hlength := hperm.length_eq
      rw [List.length_cons] at hlength
      have hle := h.pop_le hlists hpop
      rw [← hsame] at hlists
      simp only [hkept]
      split_ifs with hskip
      · refine hkept ▸ ih hv hlists (by omega) fun p hp b hb => ?_
        exact hprevious p (hkept ▸ hp) b (hperm.mem_iff.mpr (List.mem_cons_of_mem a hb))
      · obtain ⟨hsorted, hlt⟩ := ih (hv.setPrevious (some a)) hlists (by
          change v.rest.length < fuel
          omega) fun p hp b hb => by
            cases hp
            exact hle b hb
        refine ⟨List.pairwise_cons.mpr ⟨hlt a rfl, hsorted⟩, fun p hp b hb => ?_⟩
        have hpa : p < a := lt_of_le_of_ne
          (hprevious p hp a (hperm.mem_iff.mpr List.mem_cons_self))
          fun heq => hskip (heq ▸ hp)
        rcases List.mem_cons.mp hb with rfl | hb
        · exact hpa
        · exact hpa.trans (hlt a rfl b hb)

theorem inv_new (lists : List (List α)) : (new lists).Inv where
  sorted := List.pairwise_insertionSort Cursor.le _
  value := by
    intro c hc
    obtain ⟨p, hp, hhead⟩ := List.mem_filterMap.mp
      ((List.perm_insertionSort Cursor.le _).mem_iff.mp hc)
    obtain ⟨a, ha, rfl⟩ := Option.map_eq_some_iff.mp hhead
    change (lists[p.2]?.bind fun l => l[0]?) = some a
    rw [List.mem_zipIdx_iff_getElem?.mp hp, Option.bind_some, ← List.head?_eq_getElem?, ha]

/-- At the start nothing is passed. -/
theorem rest_new (lists : List (List α)) : (new lists).rest.Perm lists.flatten := by
  have hall : ∀ ps : List (List α × ℕ), (∀ p ∈ ps, lists[p.2]? = some p.1) →
      ((ps.filterMap fun p => p.1.head?.map fun a => (⟨a, p.2, 0⟩ : Cursor α)).flatMap
        fun c => (lists[c.list]?.getD []).drop c.position) = (ps.map Prod.fst).flatten := by
    intro ps hps
    induction ps with
    | nil => rfl
    | cons p ps ih =>
      rw [List.forall_mem_cons] at hps
      rw [List.map_cons, List.flatten_cons, ← ih hps.2]
      cases hp : p.1 with
      | nil => simp [hp]
      | cons a l =>
        rw [List.filterMap_cons_some (b := ⟨a, p.2, 0⟩) (by simp [hp]), List.flatMap_cons]
        simp [hps.1, hp]
  have hnew := hall lists.zipIdx fun p hp => List.mem_zipIdx_iff_getElem?.mp hp
  rw [List.zipIdx_map_fst] at hnew
  exact hnew ▸ (List.perm_insertionSort Cursor.le _).flatMap_right _

theorem mem_toList {lists : List (List α)} {a : α} : a ∈ toList lists ↔ ∃ l ∈ lists, a ∈ l := by
  have hfuel : (new lists).rest.length < lists.flatten.length + 1 := by
    rw [(rest_new lists).length_eq]
    omega
  obtain ⟨hsound, hcomplete⟩ := mem_collect (inv_new lists) hfuel (b := a)
  rw [(rest_new lists).mem_iff, List.mem_flatten] at hsound hcomplete
  exact ⟨hsound, fun h => (hcomplete h).resolve_right (by simp [new])⟩

theorem toList_sorted {lists : List (List α)} (hlists : ∀ l ∈ lists, l.Pairwise (· ≤ ·)) :
    (toList lists).Pairwise (· < ·) := by
  have hfuel : (new lists).rest.length < lists.flatten.length + 1 := by
    rw [(rest_new lists).length_eq]
    omega
  exact (collect_sorted (inv_new lists) hlists hfuel (by simp [new])).1

/-- The first value of one stream that the other, read along, does not show. -/
def firstMissing : List α → List α → Option α
  | [], _ => none
  | a :: as, bs =>
    match bs.dropWhile (· < a) with
    | [] => some a
    | b :: bs => if b = a then firstMissing as (b :: bs) else some a

theorem subset_of_firstMissing {as bs : List α} (h : firstMissing as bs = none) : as ⊆ bs := by
  induction as generalizing bs with
  | nil => exact List.nil_subset bs
  | cons a as ih =>
    rw [firstMissing] at h
    cases hdrop : bs.dropWhile (· < a) with
    | nil => simp [hdrop] at h
    | cons b rest =>
      simp only [hdrop] at h
      split_ifs at h with hba
      have hsub : b :: rest ⊆ bs := hdrop ▸ List.dropWhile_subset _
      exact List.cons_subset.mpr ⟨hsub (hba ▸ List.mem_cons_self), List.Subset.trans (ih h) hsub⟩

/-- Along sorted streams it is really missing. -/
theorem not_mem_of_firstMissing {as bs : List α} {a : α} (has : as.Pairwise (· < ·))
    (hbs : bs.Pairwise (· < ·)) (h : firstMissing as bs = some a) : a ∈ as ∧ a ∉ bs := by
  induction as generalizing bs with
  | nil => simp [firstMissing] at h
  | cons b as ih =>
    rw [List.pairwise_cons] at has
    have hdropped : ∀ c ∈ bs, b ≤ c → c ∈ bs.dropWhile (· < b) := by
      intro c hc hle
      rw [← List.takeWhile_append_dropWhile (p := (· < b)) (l := bs)] at hc
      refine (List.mem_append.mp hc).resolve_left fun htaken => ?_
      have hlt := List.mem_takeWhile_imp htaken
      exact hle.not_gt (by simpa using hlt)
    rw [firstMissing] at h
    cases hdrop : bs.dropWhile (· < b) with
    | nil =>
      simp only [hdrop, Option.some.injEq] at h
      subst h
      refine ⟨List.mem_cons_self, fun hin => ?_⟩
      simpa [hdrop] using hdropped b hin le_rfl
    | cons c rest =>
      have hrest : (c :: rest).Pairwise (· < ·) :=
        hdrop ▸ hbs.sublist (List.dropWhile_sublist _)
      simp only [hdrop] at h
      split_ifs at h with hcb
      · obtain ⟨hmem, hnot⟩ := ih has.2 hrest h
        refine ⟨List.mem_cons_of_mem b hmem, fun hin => hnot ?_⟩
        exact hdrop ▸ hdropped a hin (has.1 a hmem).le
      · cases h
        refine ⟨List.mem_cons_self, fun hin => ?_⟩
        have hfirst := hdropped a hin le_rfl
        rw [hdrop] at hfirst
        rcases List.mem_cons.mp hfirst with heq | hlater
        · exact hcb heq.symm
        · have hlt : c < a := (List.pairwise_cons.mp hrest).1 a hlater
          have hnot := List.head?_dropWhile_not (· < a) bs
          simp [hdrop, hlt] at hnot

end SortedUnion
