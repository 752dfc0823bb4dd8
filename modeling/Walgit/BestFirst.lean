import Mathlib.Data.List.Nodup
import Mathlib.Logic.Relation
import Mathlib.Order.Lattice

/-!
# Best-first search

A search that always goes on from the newest vertex it found, each vertex once. A bound on the
number of visits cuts its order off.
-/
namespace BestFirst

structure Item (τ α : Type) where
  time : τ
  seq : ℕ
  vertex : α
  deriving DecidableEq, Repr

/-- What was found, of it what waits in the heap, and how much was found after the start. -/
structure State (τ α : Type) where
  heap : List (Item τ α)
  seen : List α
  seq : ℕ

section Heap

variable {τ α : Type} [LinearOrder τ]

/-- Newer items come first, of one time the one found first. -/
def Item.before (a b : Item τ α) : Prop := b.time < a.time ∨ a.time = b.time ∧ a.seq < b.seq

instance (a b : Item τ α) : Decidable (a.before b) := inferInstanceAs (Decidable (_ ∨ _))

def pop : List (Item τ α) → Option (Item τ α × List (Item τ α))
  | [] => none
  | a :: rest =>
    match pop rest with
    | none => some (a, [])
    | some (b, rest) => if b.before a then some (b, a :: rest) else some (a, b :: rest)

theorem pop_eq_none {heap : List (Item τ α)} : pop heap = none ↔ heap = [] := by
  cases heap with
  | nil => simp [pop]
  | cons a rest =>
    refine iff_of_false (fun h => ?_) (by simp)
    rw [pop] at h
    split at h
    · cases h
    · split_ifs at h

theorem before_trans {a b c : Item τ α} (hab : a.before b) (hbc : b.before c) : a.before c := by
  rcases hab with hab | ⟨hab, hab'⟩ <;> rcases hbc with hbc | ⟨hbc, hbc'⟩
  · exact Or.inl (hbc.trans hab)
  · exact Or.inl (hbc ▸ hab)
  · exact Or.inl (hab ▸ hbc)
  · exact Or.inr ⟨hab.trans hbc, Nat.lt_trans hab' hbc'⟩

/-- What is popped comes before all that stays. -/
theorem pop_spec {heap rest : List (Item τ α)} {a : Item τ α} (h : pop heap = some (a, rest)) :
    heap.Perm (a :: rest) ∧ ∀ b ∈ rest, ¬ b.before a := by
  induction heap generalizing a rest with
  | nil => cases h
  | cons c heap ih =>
    rw [pop] at h
    cases hpop : pop heap with
    | none =>
      rw [pop_eq_none.mp hpop] at h ⊢
      cases h
      exact ⟨List.Perm.refl _, by simp⟩
    | some p =>
      obtain ⟨b, heap'⟩ := p
      obtain ⟨hperm, hfirst⟩ := ih hpop
      rw [hpop] at h
      simp only at h
      split_ifs at h with hbefore <;> cases h
      · refine ⟨(hperm.cons c).trans (List.Perm.swap _ _ _), fun d hd => ?_⟩
        rcases List.mem_cons.mp hd with rfl | hd
        · intro hda
          rcases before_trans hda hbefore with hlt | ⟨-, hlt⟩
          · exact lt_irrefl _ hlt
          · exact Nat.lt_irrefl _ hlt
        · exact hfirst d hd
      · refine ⟨hperm.cons c, fun d hd => ?_⟩
        rcases List.mem_cons.mp hd with rfl | hd
        · exact hbefore
        · intro hdc
          -- Not before the first of the others, which is not before this one.
          rcases hdc with hlt | ⟨heq, hlt⟩
          · have hnot := hfirst d hd
            have hb : ¬ (b.time > c.time) := fun hgt => hbefore (Or.inl hgt)
            exact hnot (Or.inl ((not_lt.mp hb).trans_lt hlt))
          · by_cases hbt : b.time = c.time
            · have hseq : c.seq ≤ b.seq := by
                by_contra hgt
                exact hbefore (Or.inr ⟨hbt, Nat.lt_of_not_le hgt⟩)
              exact hfirst d hd (Or.inr ⟨heq.trans hbt.symm, Nat.lt_of_lt_of_le hlt hseq⟩)
            · have hless : b.time < c.time := by
                refine lt_of_le_of_ne (not_lt.mp fun hgt => hbefore (Or.inl hgt)) hbt
              exact hfirst d hd (Or.inl (heq ▸ hless))

end Heap

section Push

variable {τ α : Type} (time : α → τ)

def start (v : α) : State τ α := ⟨[⟨time v, 0, v⟩], [v], 0⟩

variable [DecidableEq α]

def push (s : State τ α) : List α → State τ α
  | [] => s
  | v :: vs =>
    if v ∈ s.seen then push s vs
    else push ⟨⟨time v, s.seq + 1, v⟩ :: s.heap, v :: s.seen, s.seq + 1⟩ vs

/-- The vertices in the order they are visited, up to a number of visits. -/
def order [LinearOrder τ] (next : α → List α) : ℕ → State τ α → List α
  | 0, _ => []
  | budget + 1, s =>
    match pop s.heap with
    | none => []
    | some (a, heap) =>
      a.vertex :: order next budget (push time { s with heap := heap } (next a.vertex))

/-- What is in the heap was found, once, and carries its time. -/
structure State.Ok (time : α → τ) (s : State τ α) : Prop where
  nodup : (s.heap.map Item.vertex).Nodup
  found : ∀ a ∈ s.heap, a.vertex ∈ s.seen
  times : ∀ a ∈ s.heap, a.time = time a.vertex

variable {time}

omit [DecidableEq α] in
theorem ok_start (v : α) : (start time v).Ok time :=
  ⟨List.nodup_singleton v, by simp [start], by simp [start]⟩

theorem push_ok {s : State τ α} (h : s.Ok time) (vs : List α) : (push time s vs).Ok time := by
  induction vs generalizing s with
  | nil => exact h
  | cons v vs ih =>
    rw [push]
    split_ifs with hv
    · exact ih h
    · refine ih ⟨?_, fun a ha => ?_, fun a ha => ?_⟩
      · rw [List.map_cons, List.nodup_cons]
        refine ⟨fun hmem => hv ?_, h.nodup⟩
        obtain ⟨a, ha, rfl⟩ := List.mem_map.mp hmem
        exact h.found a ha
      · rcases List.mem_cons.mp ha with rfl | ha
        · exact List.mem_cons_self
        · exact List.mem_cons_of_mem _ (h.found a ha)
      · rcases List.mem_cons.mp ha with rfl | ha
        · rfl
        · exact h.times a ha

/-- Pushing finds the new ones and forgets nothing. -/
theorem push_seen {s : State τ α} (vs : List α) {x : α} :
    x ∈ (push time s vs).seen ↔ x ∈ s.seen ∨ x ∈ vs := by
  induction vs generalizing s with
  | nil => simp [push]
  | cons v vs ih =>
    rw [push]
    split_ifs with hv
    · rw [ih, List.mem_cons]
      constructor
      · rintro (h | h)
        · exact Or.inl h
        · exact Or.inr (Or.inr h)
      · rintro (h | rfl | h)
        · exact Or.inl h
        · exact Or.inl hv
        · exact Or.inr h
    · rw [ih, List.mem_cons, List.mem_cons, or_assoc]
      exact or_left_comm

/-- What waits after a push waited before or is new. -/
theorem push_heap {s : State τ α} (vs : List α) {x : α} :
    x ∈ (push time s vs).heap.map Item.vertex ↔
      x ∈ s.heap.map Item.vertex ∨ x ∈ vs ∧ x ∉ s.seen := by
  induction vs generalizing s with
  | nil => simp [push]
  | cons v vs ih =>
    rw [push]
    split_ifs with hv
    · rw [ih, List.mem_cons]
      grind
    · rw [ih, List.map_cons, List.mem_cons, List.mem_cons, List.mem_cons]
      grind

end Push

section Search

variable {τ α : Type} [LinearOrder τ] {time : α → τ}

/-- Taking the first item leaves the state in order. -/
theorem State.Ok.pop {s : State τ α} (h : s.Ok time) {a : Item τ α} {heap : List (Item τ α)}
    (hpop : BestFirst.pop s.heap = some (a, heap)) :
    ({ s with heap := heap } : State τ α).Ok time ∧ a.vertex ∈ s.seen ∧ a.time = time a.vertex ∧
      a.vertex ∉ heap.map Item.vertex := by
  obtain ⟨hperm, -⟩ := pop_spec hpop
  have hnodup := (hperm.map Item.vertex).nodup_iff.mp h.nodup
  rw [List.map_cons, List.nodup_cons] at hnodup
  have hmem : ∀ b ∈ heap, b ∈ s.heap := fun b hb => hperm.mem_iff.mpr (List.mem_cons_of_mem _ hb)
  have ha : a ∈ s.heap := hperm.mem_iff.mpr List.mem_cons_self
  exact ⟨⟨hnodup.2, fun b hb => h.found b (hmem b hb), fun b hb => h.times b (hmem b hb)⟩,
    h.found a ha, h.times a ha, hnodup.1⟩

variable [DecidableEq α] {next : α → List α}

theorem mem_order_succ {budget : ℕ} {s : State τ α} {x : α} :
    x ∈ order time next (budget + 1) s ↔ ∃ a heap, pop s.heap = some (a, heap) ∧
      (x = a.vertex ∨ x ∈ order time next budget (push time { s with heap } (next a.vertex))) := by
  rw [order]
  cases hpop : pop s.heap with
  | none => simp
  | some p =>
    obtain ⟨a, heap⟩ := p
    simp

/-- What is visited later waits, or was not found yet. -/
theorem mem_order {budget : ℕ} {s : State τ α} (h : s.Ok time) {x : α}
    (hx : x ∈ order time next budget s) : x ∈ s.heap.map Item.vertex ∨ x ∉ s.seen := by
  induction budget generalizing s with
  | zero => cases hx
  | succ budget ih =>
    obtain ⟨a, heap, hpop, hx⟩ := mem_order_succ.mp hx
    obtain ⟨hok, -⟩ := h.pop hpop
    have hperm := ((pop_spec hpop).1.map Item.vertex).mem_iff (a := x)
    rw [List.map_cons, List.mem_cons] at hperm
    rcases hx with rfl | hx
    · exact Or.inl (hperm.mpr (Or.inl rfl))
    · rcases ih (push_ok hok _) hx with hheap | hnew
      · rcases (push_heap _).mp hheap with hheap | ⟨-, hnew⟩
        · exact Or.inl (hperm.mpr (Or.inr hheap))
        · exact Or.inr hnew
      · exact Or.inr fun hseen => hnew ((push_seen _).mpr (Or.inl hseen))

/-- No vertex is visited twice. -/
theorem order_nodup {budget : ℕ} {s : State τ α} (h : s.Ok time) :
    (order time next budget s).Nodup := by
  induction budget generalizing s with
  | zero => exact List.nodup_nil
  | succ budget ih =>
    rw [order]
    cases hpop : pop s.heap with
    | none => exact List.nodup_nil
    | some p =>
      obtain ⟨a, heap⟩ := p
      obtain ⟨hok, hfound, -, hfresh⟩ := h.pop hpop
      refine List.nodup_cons.mpr ⟨fun hmem => ?_, ih (push_ok hok _)⟩
      rcases mem_order (push_ok hok _) hmem with hheap | hnew
      · rcases (push_heap _).mp hheap with hheap | ⟨-, hnew⟩
        · exact hfresh hheap
        · exact hnew hfound
      · exact hnew ((push_seen _).mpr (Or.inl hfound))

/-- Whatever is visited is reached from what waits. -/
theorem order_reached {budget : ℕ} {s : State τ α} {x : α} (hx : x ∈ order time next budget s) :
    ∃ v ∈ s.heap.map Item.vertex, Relation.ReflTransGen (fun v w => w ∈ next v) v x := by
  induction budget generalizing s with
  | zero => cases hx
  | succ budget ih =>
    obtain ⟨a, heap, hpop, hx⟩ := mem_order_succ.mp hx
    have hperm := fun v => ((pop_spec hpop).1.map Item.vertex).mem_iff (a := v)
    simp only [List.map_cons, List.mem_cons] at hperm
    rcases hx with rfl | hx
    · exact ⟨_, (hperm _).mpr (Or.inl rfl), .refl⟩
    · obtain ⟨v, hv, hreach⟩ := ih hx
      rcases (push_heap _).mp hv with hv | ⟨hv, -⟩
      · exact ⟨v, (hperm v).mpr (Or.inr hv), hreach⟩
      · exact ⟨a.vertex, (hperm _).mpr (Or.inl rfl), .head hv hreach⟩

/-- A search that ends within its budget visits what waits, and whatever it visits leads to. -/
theorem order_closed {budget : ℕ} {s : State τ α}
    (hend : (order time next budget s).length < budget) :
    (∀ v ∈ s.heap.map Item.vertex, v ∈ order time next budget s) ∧
      ∀ x ∈ order time next budget s, ∀ y ∈ next x, y ∈ s.seen ∨ y ∈ order time next budget s := by
  induction budget generalizing s with
  | zero => cases hend
  | succ budget ih =>
    rw [order] at hend ⊢
    cases hpop : pop s.heap with
    | none =>
      rw [pop_eq_none.mp hpop]
      exact ⟨by simp, by simp⟩
    | some p =>
      obtain ⟨a, heap⟩ := p
      have hperm := fun v => ((pop_spec hpop).1.map Item.vertex).mem_iff (a := v)
      simp only [List.map_cons, List.mem_cons] at hperm
      rw [hpop] at hend
      simp only [List.length_cons, Nat.succ_lt_succ_iff] at hend
      obtain ⟨hheap, hnext⟩ := ih hend
      -- What a push found and did not know before waits after it.
      have hknown : ∀ y, y ∈ s.seen ∨ y ∈ next a.vertex →
          y ∈ s.seen ∨ y ∈ order time next budget
            (push time { s with heap := heap } (next a.vertex)) := by
        intro y hy
        by_cases hseen : y ∈ s.seen
        · exact Or.inl hseen
        · exact Or.inr (hheap y ((push_heap _).mpr (Or.inr ⟨hy.resolve_left hseen, hseen⟩)))
      refine ⟨fun v hv => ?_, fun x hx y hy => ?_⟩
      · rcases (hperm v).mp hv with rfl | hv
        · exact List.mem_cons_self
        · exact List.mem_cons_of_mem _ (hheap v ((push_heap _).mpr (Or.inl hv)))
      · rcases List.mem_cons.mp hx with rfl | hx
        · exact (hknown y (Or.inr hy)).imp_right (List.mem_cons_of_mem _)
        · rcases hnext x hx y hy with hseen | hmem
          · have hpushed : y ∈ s.seen ∨ y ∈ next a.vertex :=
              (push_seen (s := { s with heap := heap }) _).mp hseen
            exact (hknown y hpushed).imp_right (List.mem_cons_of_mem _)
          · exact Or.inr (List.mem_cons_of_mem _ hmem)

/-- From one vertex, such a search visits everything that is reached from it. -/
theorem order_complete {budget : ℕ} {v x : α}
    (hend : (order time next budget (start time v)).length < budget)
    (hx : Relation.ReflTransGen (fun v w => w ∈ next v) v x) :
    x ∈ order time next budget (start time v) := by
  obtain ⟨hheap, hnext⟩ := order_closed hend
  have hv : v ∈ order time next budget (start time v) := hheap v (by simp [start])
  induction hx with
  | refl => exact hv
  | tail _ hstep ih =>
    rcases hnext _ ih _ hstep with hseen | hmem
    · rw [List.mem_singleton.mp hseen]
      exact hv
    · exact hmem

omit [DecidableEq α] in
theorem time_le_of_reached (hmono : ∀ v, ∀ w ∈ next v, time w ≤ time v) {v x : α}
    (hx : Relation.ReflTransGen (fun v w => w ∈ next v) v x) : time x ≤ time v := by
  induction hx with
  | refl => exact le_rfl
  | tail _ hstep ih => exact (hmono _ _ hstep).trans ih

/-- Where nothing is newer than what leads to it, newer vertices are visited first. -/
theorem order_sorted (hmono : ∀ v, ∀ w ∈ next v, time w ≤ time v) {budget : ℕ} {s : State τ α}
    (h : s.Ok time) : (order time next budget s).Pairwise fun x y => time y ≤ time x := by
  induction budget generalizing s with
  | zero => exact List.Pairwise.nil
  | succ budget ih =>
    rw [order]
    cases hpop : pop s.heap with
    | none => exact List.Pairwise.nil
    | some p =>
      obtain ⟨a, heap⟩ := p
      obtain ⟨hok, -, htime, -⟩ := h.pop hpop
      obtain ⟨-, hfirst⟩ := pop_spec hpop
      refine List.pairwise_cons.mpr ⟨fun x hx => ?_, ih (push_ok hok _)⟩
      obtain ⟨v, hv, hreach⟩ := order_reached hx
      refine (time_le_of_reached hmono hreach).trans ?_
      rcases (push_heap _).mp hv with hv | ⟨hv, -⟩
      · obtain ⟨b, hb, rfl⟩ := List.mem_map.mp hv
        rw [← hok.times b hb, ← htime]
        exact not_lt.mp fun hlt => hfirst b hb (Or.inl hlt)
      · exact hmono _ _ hv

end Search

end BestFirst
