import Walgit.EntryTimes
import Walgit.ForgeTraces

/-!
# The forge states of captures

A batch with forge events is captured with the forge state of its handle, which is along the log
and not behind the basis. The swap only lands on that basis. So what a batch was verified against
is, up to what no check reads, the fold of the log it was committed over.
-/
namespace Walgit

open ForgeState (ofLog)

section Bases

variable [Text.CharTables] {cfg : Config} {w w' : World}

theorem ForgeState.Traces.seq_le {f : ForgeState} (hf : f.Traces w) (h : Inv cfg w)
    {g : Generation} {gens : List Generation} (hgens : w.gens = g :: gens) :
    f.seq ≤ g.manifest.headSeq := by
  obtain ⟨-, t, ⟨p, q, hlog, rfl, -⟩, hlike⟩ := hf
  rw [hlike.seq]
  refine Catchup.Fold.seq_foldl_le (F := ForgeState.follow) (Nat.zero_le _) fun e he => ?_
  have hchain : Chain cfg (g :: gens) := hgens ▸ h.chain
  exact (hchain.entry_bounds (hgens ▸ hlog ▸ List.mem_append_left q he)).2

/-- A batch with forge events was captured with a forge state not behind its basis. -/
structure Attempt.Sees (w : World) (job : Job) (a : Attempt) : Prop where
  traces : job.hasForge → a.basis.forge.Traces w
  reached : job.hasForge → a.basis.manifest.headSeq ≤ a.basis.forge.seq

theorem Attempt.Sees.grow {job : Job} {a : Attempt} (h : a.Sees w job) (h' : Inv cfg w')
    (hgrow : w.Grows w') : a.Sees w' job :=
  ⟨fun hforge => standing_traces.grows (h.traces hforge) h' hgrow, h.reached⟩

/-- What is committed over a basis was not captured with a forge state ahead of it. -/
structure World.Sees (w : World) : Prop where
  tasks : ∀ t task a, w.tasks t = some task → task.phase.attempt = some a → a.Sees w task.job
  claims : ∀ o ∈ w.claims, o.attempt.Sees w o.job
  current : ∀ o, Committed w o → o.job.hasForge →
    o.attempt.basis.forge.seq ≤ o.attempt.basis.manifest.headSeq

/-- Captures that see the log keep everything so. -/
theorem World.Sees.step (h : w.Sees) (hinv : Inv cfg w) {action : Action}
    (hstep : step cfg w action = some w')
    (hcapture : ∀ t a, action = .capture t a → ∀ task, w.tasks t = some task →
      a.Sees w task.job) : w'.Sees := by
  have hgrow := step_grows hinv hstep
  have hinv' := hinv.step action hstep
  refine ⟨fun t task' a htask' ha => ?_, fun o ho => ?_, fun o ho hforge => ?_⟩
  · rcases step_attempts hstep htask' ha with ⟨task, htask, hjob, ha⟩ | ⟨rfl, -⟩
    · exact hjob ▸ (h.tasks t task a htask ha).grow hinv' hgrow
    · obtain ⟨task, htask, -, -, rfl⟩ := step_capture hstep
      have hjob : task'.job = task.job := by
        have hself : captured task a = task' := by simpa [World.setTask] using htask'
        rw [← hself, captured_job]
      exact hjob ▸ (hcapture t a rfl task htask).grow hinv' hgrow
  · rcases step_writes hstep ho with ho | ⟨t, uuid, clock, reply, task, burned, es, rfl, htask,
      hjob, hphase, -, -⟩
    · exact (h.claims o ho).grow hinv' hgrow
    · have hattempt : task.phase.attempt = some o.attempt := by rw [hphase]; rfl
      exact hjob ▸ (h.tasks t task _ htask hattempt).grow hinv' hgrow
  · obtain ⟨g, hg, horigin⟩ := ho
    rcases step_gens hstep with hsame | ⟨g', hnew⟩
    · exact h.current o ⟨g, hsame ▸ hg, horigin⟩ hforge
    · rcases List.mem_cons.mp (hnew ▸ hg) with rfl | hold
      · -- The swap found the basis current, and no forge state is ahead of that.
        have hclaimed : o ∈ w.claims := by
          rcases step_writes hstep (hinv'.claimed o ⟨g, hg, horigin⟩) with ho | ⟨t, uuid, clock,
            reply, task, burned, es, rfl, -⟩
          · exact ho
          · have hlength := congrArg List.length (hnew.symm.trans (claim_gens hstep))
            simp at hlength
        obtain ⟨g₀, gens₀, hgens, -⟩ := hinv.current
        have hchain : Chain cfg (g :: g₀ :: gens₀) := by
          rw [← hgens, ← hnew]
          exact hinv'.chain
        have hle := ((h.claims o hclaimed).traces hforge).seq_le hinv hgens
        cases hchain with
        | append older o' now m version basis wrote burned edit newer =>
          obtain rfl : o' = o := Option.some.inj horigin
          rwa [basis]
        | rewrite => cases horigin
      · exact h.current o ⟨g, hold, horigin⟩ hforge

/-- A deed is no capture, or captures with the forge state of a handle. -/
theorem Cluster.step_captures {s s' : Cluster} {d : Deed} (h : Cluster.step cfg s d = some s') :
    s'.world = s.world ∨
    (∃ a, Walgit.step cfg s.world a = some s'.world ∧ ∀ t b, a ≠ .capture t b) ∨
    ∃ t b task i handle, Walgit.step cfg s.world (.capture t b) = some s'.world ∧
      s.world.tasks t = some task ∧ s.handles i = some handle ∧
      b.basis.forge = handle.forge.getD .empty ∧
      (task.job.hasForge → ∃ f, handle.forge = some f ∧ b.basis.manifest.headSeq ≤ f.seq) := by
  cases d with
  | capture t policy writer startedAt lastEntryTime =>
    obtain ⟨task, i, handle, p, w, ht, -, hhandle, -, hforge, hw, rfl⟩ := Cluster.step_capture h
    exact Or.inr (Or.inr ⟨t, _, task, i, handle, hw, ht, hhandle, rfl, hforge⟩)
  | _ =>
    rcases Cluster.step_world h with hsame | ⟨a, hw, hcapture, -⟩
    · exact Or.inl hsame
    · refine Or.inr (Or.inl ⟨a, hw, fun t b heq => ?_⟩)
      obtain ⟨_, _, _, _, _, hd, -⟩ := hcapture t b heq
      cases hd

/-- Calls of `forge_ensure` leave the store and the publishers alone. -/
theorem ForgeLoads.step_world {s s' : ForgeLoads} {e : LoadEvent}
    (h : ForgeLoads.step cfg s e = some s') : s'.cluster.world = s.cluster.world ∨
      ∃ d, s.cluster.step cfg d = some s'.cluster := by
  cases e with
  | deed d =>
    obtain ⟨c, hc, rfl⟩ := Option.map_eq_some_iff.mp h
    exact Or.inr ⟨d, hc⟩
  | ask i =>
    simp only [ForgeLoads.step, Option.bind_eq_bind, Option.bind_eq_some_iff,
      Option.some.injEq] at h
    obtain ⟨handle, -, rfl⟩ := h
    exact Or.inl rfl
  | read k =>
    simp only [ForgeLoads.step, Option.bind_eq_bind, Option.bind_eq_some_iff] at h
    obtain ⟨load, -, h⟩ := h
    cases load with
    | read => cases h
    | asked i m =>
      obtain ⟨handle, -, h⟩ := Option.bind_eq_some_iff.mp h
      split_ifs at h
      · cases h
        exact Or.inl rfl
      · obtain ⟨entries, -, h⟩ := Option.bind_eq_some_iff.mp h
        cases h
        exact Or.inl rfl
  | fold k =>
    simp only [ForgeLoads.step, Option.bind_eq_bind, Option.bind_eq_some_iff] at h
    obtain ⟨load, -, h⟩ := h
    cases load with
    | asked => cases h
    | read i fresh after entries =>
      obtain ⟨handle, -, h⟩ := Option.bind_eq_some_iff.mp h
      cases h
      exact Or.inl rfl

/-- Every capture of a run sees the log. -/
theorem sees_run {access : Option RepoAccess} {now : Timestamp} {writer : String}
    {events : List LoadEvent} {s : ForgeLoads}
    (hrun : Runs.run (ForgeLoads.step cfg) (.created (createdManifest access now writer)) events =
      some s) : Inv cfg s.cluster.world ∧ s.cluster.world.Sees := by
  suffices h : s.Holds ForgeState.Traces cfg ∧ s.cluster.world.Sees from ⟨h.1.cluster.world, h.2⟩
  refine Runs.invariant (I := fun s : ForgeLoads => s.Holds ForgeState.Traces cfg ∧
    s.cluster.world.Sees) (fun s e s' ⟨hholds, hsees⟩ _ hstep => ?_) hrun (Runs.allSteps_true _ _)
    ⟨ForgeLoads.holds_created _ cfg access now writer, ?_⟩
  · refine ⟨ForgeLoads.step_traces hholds hstep, ?_⟩
    have hinv := hholds.cluster.world
    rcases ForgeLoads.step_world hstep with hsame | ⟨d, hc⟩
    · rw [hsame]
      exact hsees
    · rcases Cluster.step_captures hc with hsame | ⟨a, hw, hno⟩ | ⟨t, b, task, i, handle, hw, ht,
        hhandle, hforge, hreached⟩
      · rw [hsame]
        exact hsees
      · exact hsees.step hinv hw fun t b heq => absurd heq (hno t b)
      · refine hsees.step hinv hw fun t' b' heq task' ht' => ?_
        cases heq
        obtain rfl : task = task' := Option.some.inj (ht.symm.trans ht')
        refine ⟨fun hjob => ?_, fun hjob => ?_⟩
        · obtain ⟨f, hf, -⟩ := hreached hjob
          rw [hforge, hf]
          exact (hholds.cluster.handles i handle hhandle).forge f hf
        · obtain ⟨f, hf, hle⟩ := hreached hjob
          rw [hforge, hf]
          exact hle
  · refine ⟨by simp [ForgeLoads.created, Cluster.created, World.created], by
      simp [ForgeLoads.created, Cluster.created, World.created], fun o ho => ?_⟩
    obtain ⟨g, hg, ho⟩ := ho
    simp only [ForgeLoads.created, Cluster.created, World.created, List.mem_singleton] at hg
    subst hg
    cases ho

/-- What the newest generation committed was written over the one before. -/
theorem Chain.newest {g g₀ : Generation} {gens : List Generation}
    (h : Chain cfg (g :: g₀ :: gens)) {o : Origin} (ho : g.origin = some o) :
    o.attempt.basis.manifest = g₀.manifest ∧ o.Wrote ∧
      BurnedTo g₀.manifest.headSeq o.slot.firstSeq o.slot.burned := by
  cases h with
  | append older o' now m version basis wrote burned edit newer =>
    obtain rfl : o' = o := Option.some.inj ho
    exact ⟨basis, wrote, burned⟩
  | rewrite => cases ho

/-- A committed batch was verified against a state that resembles the fold of the log before it. -/
theorem World.Sees.resembles (h : w.Sees) (hinv : Inv cfg w) {g g₀ : Generation}
    {gens : List Generation} (hsuffix : (g :: g₀ :: gens) <:+ w.gens) {o : Origin}
    (ho : g.origin = some o) (hforge : o.job.hasForge) :
    let f := o.attempt.basis.forge
    f.Rebuilt ∧ f.Resembles (ofLog (committedEntries (g₀ :: gens))) := by
  intro f
  have hcommitted : Committed w o := ⟨g, hsuffix.subset List.mem_cons_self, ho⟩
  have hsees := h.claims o (hinv.claimed o hcommitted)
  obtain ⟨hrebuilt, t, ht, hlike⟩ := hsees.traces hforge
  have hbasis := ((hinv.chain.suffix hsuffix).newest ho).1
  have hseq : t.seq = g₀.manifest.headSeq := by
    rw [← hlike.seq, ← hbasis]
    exact le_antisymm (h.current o hcommitted hforge) (hsees.reached hforge)
  have hlog : t = ofLog (committedEntries (g₀ :: gens)) := by
    rw [ht.eq_forgeAt, hseq, ← hinv.chain.upTo_head ((List.suffix_cons g _).trans hsuffix)]
    rfl
  exact ⟨hrebuilt, hlog ▸ hlike⟩

end Bases

end Walgit
