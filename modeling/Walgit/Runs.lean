import Mathlib.Data.List.Induction

/-!
# Runs of a transition system

A system is a partial step function on states and actions. A run is a list of
actions that are all enabled; a condition on steps restricts the runs considered.
-/
namespace Runs

variable {σ α : Type*} (step : σ → α → Option σ)

def run (s : σ) (as : List α) : Option σ := as.foldlM step s

/-- Every step of the run meets a condition on the state it leaves and its action. -/
def AllSteps (ok : σ → α → Prop) : σ → List α → Prop
  | _, [] => True
  | s, a :: as => ok s a ∧ ∀ t ∈ step s a, AllSteps ok t as

instance AllSteps.decidable {ok : σ → α → Prop} [∀ s a, Decidable (ok s a)] :
    ∀ (s : σ) (as : List α), Decidable (AllSteps step ok s as)
  | _, [] => isTrue trivial
  | s, a :: as =>
    have : ∀ t, Decidable (AllSteps step ok t as) := fun t => AllSteps.decidable t as
    inferInstanceAs (Decidable (ok s a ∧ ∀ t ∈ step s a, AllSteps step ok t as))

variable {step}

theorem run_cons {s u : σ} {a : α} {as : List α} (h : run step s (a :: as) = some u) :
    ∃ t, step s a = some t ∧ run step t as = some u := by
  rw [run, List.foldlM_cons] at h
  exact Option.bind_eq_some_iff.mp h

/-- A property that holds at the start and survives every admitted step holds at the end. -/
theorem invariant {ok : σ → α → Prop} {I : σ → Prop}
    (hstep : ∀ s a t, I s → ok s a → step s a = some t → I t) {s t : σ} {as : List α}
    (hrun : run step s as = some t) (hok : AllSteps step ok s as) (h : I s) : I t := by
  induction as generalizing s with
  | nil =>
    cases hrun
    exact h
  | cons a as ih =>
    obtain ⟨u, hsu, hut⟩ := run_cons hrun
    exact ih hut (hok.2 u hsu) (hstep s a u h hok.1 hsu)

/-- If each step keeps a property exactly when its action is good, the property holds all along
a run exactly when all its actions are good. -/
theorem invariant_iff {ok : α → Prop} {I : σ → Prop}
    (hstep : ∀ s a t, I s → step s a = some t → (I t ↔ ok a)) {s u : σ} {as : List α} (h : I s)
    (hrun : run step s as = some u) :
    (∀ bs t, bs <+: as → run step s bs = some t → I t) ↔ ∀ a ∈ as, ok a := by
  induction as generalizing s with
  | nil =>
    refine iff_of_true (fun bs t hbs ht => ?_) (by simp)
    rw [List.prefix_nil.mp hbs] at ht
    cases ht
    exact h
  | cons a as ih =>
    obtain ⟨t, hst, htu⟩ := run_cons hrun
    have hcons : ∀ bs, run step s (a :: bs) = run step t bs := fun bs => by
      rw [run, List.foldlM_cons, hst]
      rfl
    have hfirst := hstep s a t h hst
    rw [List.forall_mem_cons]
    constructor
    · intro hall
      have ht : I t := hall [a] t ⟨as, rfl⟩ (hcons [])
      refine ⟨hfirst.mp ht, (ih ht htu).mp fun bs v hbs hv => ?_⟩
      exact hall (a :: bs) v ((List.prefix_cons_inj a).mpr hbs) ((hcons bs).trans hv)
    · rintro ⟨ha, has⟩ bs v hbs hv
      cases bs with
      | nil =>
        cases hv
        exact h
      | cons b bs =>
        obtain ⟨rfl, hrest⟩ := List.cons_prefix_cons.mp hbs
        rw [hcons] at hv
        exact (ih (hfirst.mpr ha) htu).mpr has bs v hrest hv

theorem run_append (s : σ) (as bs : List α) :
    run step s (as ++ bs) = (run step s as).bind fun t => run step t bs := by
  simp only [run, List.foldlM_append]
  rfl

/-- Induction on a run from its end, with the actions taken so far. -/
theorem run_induction {s : σ} {P : List α → σ → Prop} (hnil : P [] s)
    (hstep : ∀ as t a u, P as t → step t a = some u → P (as ++ [a]) u)
    {as : List α} {t : σ} (hrun : run step s as = some t) : P as t := by
  induction as using List.reverseRecOn generalizing t with
  | nil =>
    cases hrun
    exact hnil
  | append_singleton as a ih =>
    rw [run_append] at hrun
    obtain ⟨u, hu, hlast⟩ := Option.bind_eq_some_iff.mp hrun
    obtain ⟨v, hv, hnil⟩ := run_cons hlast
    cases hnil
    exact hstep as u a t (ih hu) hv

/-- A guarded system only does what the system without the guard can do. -/
theorem run_of_guarded {guarded : σ → α → Option σ}
    (hguard : ∀ s a t, guarded s a = some t → step s a = some t) {s u : σ} {as : List α}
    (hrun : run guarded s as = some u) : run step s as = some u := by
  induction as generalizing s with
  | nil => exact hrun
  | cons a as ih =>
    obtain ⟨t, hst, htu⟩ := run_cons hrun
    rw [run, List.foldlM_cons, hguard s a t hst]
    exact ih htu

/-- A condition on actions alone holds along a run if every action meets it. -/
theorem allSteps_of_forall {ok : σ → α → Prop} (s : σ) {as : List α}
    (h : ∀ a ∈ as, ∀ s, ok s a) : AllSteps step ok s as := by
  induction as generalizing s with
  | nil => trivial
  | cons a as ih =>
    exact ⟨h a List.mem_cons_self s, fun t _ => ih t fun b hb => h b (List.mem_cons_of_mem _ hb)⟩

/-- Without a condition every run is admitted. -/
theorem allSteps_true (s : σ) (as : List α) : AllSteps step (fun _ _ => True) s as :=
  allSteps_of_forall s fun _ _ _ => trivial

/-- A condition on steps and one on the actions of the run. -/
theorem AllSteps.and {ok : σ → α → Prop} {P : α → Prop} {s : σ} {as : List α}
    (h : AllSteps step ok s as) (hP : ∀ a ∈ as, P a) :
    AllSteps step (fun s a => ok s a ∧ P a) s as := by
  induction as generalizing s with
  | nil => trivial
  | cons a as ih =>
    rw [List.forall_mem_cons] at hP
    exact ⟨⟨h.1, hP.1⟩, fun t ht => ih (h.2 t ht) hP.2⟩

theorem allSteps_append {ok : σ → α → Prop} {s : σ} {as bs : List α} :
    AllSteps step ok s (as ++ bs) ↔
      AllSteps step ok s as ∧ ∀ t ∈ run step s as, AllSteps step ok t bs := by
  induction as generalizing s with
  | nil =>
    refine ⟨fun h => ⟨trivial, fun t ht => ?_⟩, fun h => h.2 s rfl⟩
    cases ht
    exact h
  | cons a as ih =>
    have hcons : run step s (a :: as) = (step s a).bind fun t => run step t as := List.foldlM_cons
    simp only [List.cons_append, AllSteps, ih, hcons, Option.mem_def, Option.bind_eq_some_iff]
    exact ⟨fun h => ⟨⟨h.1, fun t ht => (h.2 t ht).1⟩, fun u ⟨t, ht, hu⟩ => (h.2 t ht).2 u hu⟩,
      fun h => ⟨h.1.1, fun t ht => ⟨h.1.2 t ht, fun u hu => h.2 u ⟨t, ht, hu⟩⟩⟩⟩

/-- If every bad step shows in the state it leads to, a run through states that show none has
only good steps. -/
theorem allSteps_of_states {ok : σ → α → Prop} {I P : σ → Prop}
    (hkeep : ∀ s a t, I s → ok s a → step s a = some t → I t)
    (hshow : ∀ s a t, I s → step s a = some t → P t → ok s a) {s u : σ} {as : List α} (h : I s)
    (hrun : run step s as = some u)
    (hall : ∀ bs t, bs <+: as → run step s bs = some t → P t) : AllSteps step ok s as := by
  induction as generalizing s with
  | nil => trivial
  | cons a as ih =>
    obtain ⟨t, hst, htu⟩ := run_cons hrun
    have hcons : ∀ bs, run step s (a :: bs) = run step t bs := fun bs => by
      rw [run, List.foldlM_cons, hst]
      rfl
    have hok : ok s a := hshow s a t h hst (hall [a] t ⟨as, rfl⟩ (hcons []))
    refine ⟨hok, fun t' ht' => ?_⟩
    cases hst.symm.trans ht'
    exact ih (hkeep s a t h hok hst) htu fun bs v hbs hv =>
      hall (a :: bs) v ((List.prefix_cons_inj a).mpr hbs) ((hcons bs).trans hv)

end Runs
