import Walgit.Checks
import Walgit.Worklist

/-!
# Depth-first visits

A visit of a node visits its dependencies first and fails on a node that is being visited.
What a visit that succeeds has done is a list in which every node comes before its
dependencies.
-/
namespace DepthFirst

variable {α : Type} (deps : α → List α)

/-- Every node of the list has its dependencies after it. -/
def Ordered : List α → Prop
  | [] => True
  | name :: rest => deps name ⊆ rest ∧ Ordered rest

/-- What holds of a node as soon as it holds of its dependencies holds of an ordered list. -/
theorem Ordered.forall_mem {deps : α → List α} {P : α → Prop} {l : List α} (h : Ordered deps l)
    (hstep : ∀ name, (∀ dep ∈ deps name, P dep) → P name) : ∀ name ∈ l, P name := by
  induction l with
  | nil => simp
  | cons name rest ih =>
    have hrest := ih h.2
    rw [List.forall_mem_cons]
    exact ⟨hstep name fun dep hdep => hrest dep (h.1 hdep), hrest⟩

variable [DecidableEq α]

/-- The nodes done after visiting a node, newest first, or the node that depends on itself. -/
def visit : ℕ → List α → α → List α → Except α (List α)
  | 0, _, name, _ => .error name
  | fuel + 1, visiting, name, done =>
    if name ∈ done then .ok done
    else if name ∈ visiting then .error name
    else do
      let done ← (deps name).foldlM (fun done dep => visit fuel (name :: visiting) dep done) done
      .ok (name :: done)

variable {deps}

/-- The node is done after a visit, and an ordered list stays ordered. -/
theorem visit_ordered {fuel : ℕ} {visiting done done' : List α} {name : α}
    (h : visit deps fuel visiting name done = .ok done') :
    (done ⊆ done' ∧ (Ordered deps done → Ordered deps done')) ∧ name ∈ done' := by
  induction fuel generalizing visiting name done done' with
  | zero => cases h
  | succ fuel ih =>
    simp only [visit] at h
    split_ifs at h with hmem hcycle
    · cases h
      exact ⟨⟨List.Subset.refl _, id⟩, hmem⟩
    · obtain ⟨rest, hrest, h⟩ := Checks.bind_eq_ok.mp h
      cases h
      obtain ⟨⟨hsub, hordered⟩, hdeps⟩ := Checks.foldlM_each
        (R := fun b c => b ⊆ c ∧ (Ordered deps b → Ordered deps c)) (P := fun dep c => dep ∈ c)
        (fun b => ⟨List.Subset.refl b, id⟩)
        (fun b c d hbc hcd => ⟨List.Subset.trans hbc.1 hcd.1, fun hb => hcd.2 (hbc.2 hb)⟩)
        (fun dep b c hb hbc => hbc.1 hb) (fun dep _ b c hc => ih hc) hrest
      exact ⟨⟨List.Subset.trans hsub (List.subset_cons_self _ _),
          fun hdone => ⟨hdeps, hordered hdone⟩⟩,
        List.mem_cons_self⟩

/-- Visits of several nodes, one after another. -/
theorem visits_ordered {fuel : ℕ} {names done done' : List α}
    (h : names.foldlM (fun done name => visit deps fuel [] name done) done = .ok done')
    (hdone : Ordered deps done) : Ordered deps done' ∧ names ⊆ done' := by
  obtain ⟨⟨-, hordered⟩, hnames⟩ := Checks.foldlM_each
    (R := fun b c => b ⊆ c ∧ (Ordered deps b → Ordered deps c)) (P := fun dep c => dep ∈ c)
    (fun b => ⟨List.Subset.refl b, id⟩)
    (fun b c d hbc hcd => ⟨List.Subset.trans hbc.1 hcd.1, fun hb => hcd.2 (hbc.2 hb)⟩)
    (fun dep b c hb hbc => hbc.1 hb) (fun dep _ b c hc => visit_ordered hc) h
  exact ⟨hordered hdone, hnames⟩

/-- Fuel for every node that is not being visited is enough: more changes nothing. -/
theorem visit_fuel {nodes : List α} (hclosed : ∀ name, name ∉ nodes → deps name = [])
    {fuel fuel' : ℕ} {visiting done : List α} {name : α}
    (h : (nodes.filter fun n => n ∉ visiting).length < fuel)
    (h' : (nodes.filter fun n => n ∉ visiting).length < fuel') :
    visit deps fuel visiting name done = visit deps fuel' visiting name done := by
  induction fuel generalizing fuel' visiting name done with
  | zero => exact absurd h (Nat.not_lt_zero _)
  | succ fuel ih =>
    cases fuel' with
    | zero => exact absurd h' (Nat.not_lt_zero _)
    | succ fuel' =>
      simp only [visit]
      split_ifs with hmem hcycle
      · rfl
      · rfl
      · congr 1
        by_cases hnode : name ∈ nodes
        · have hlt : Worklist.fresh id nodes (name :: visiting) < Worklist.fresh id nodes visiting :=
            Worklist.fresh_cons_lt hnode (by simpa using hcycle)
          simp only [Worklist.fresh, id] at hlt
          congr 1
          funext done dep
          exact ih (by omega) (by omega)
        · rw [hclosed name hnode]
          rfl

end DepthFirst
