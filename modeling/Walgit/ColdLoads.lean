import Walgit.ForgeLoads

/-!
# Cold loads of the forge state

A checkpoint takes the log below it out of the manifest and stores the forge history only if the
manifest counts an item. A handle that starts cold gets the fold of the log as long as every
checkpoint that stored nothing had nothing to store, and every publisher folded the times it made
durable.
-/
namespace Walgit

open Replay (upTo between)
open ForgeState (ofLog)

section Folds

variable [Text.CharTables] {cfg : Config} {w w' : World} {g : Generation}

/-- The second build of a batch has the times of the entries with forge events. -/
def Origin.forgeTimed (o : Origin) (reqs : List PublishRequest) (clock : ℕ → Timestamp) : Bool :=
  ((accepted reqs (verifyBatch o.attempt.basis reqs).1).zip o.slot.bytes).zipIdx.all fun p =>
    p.1.1.1.createdAt.isSome || p.1.2.forge.isEmpty ||
      p.1.2.createdAt = some (clock (o.slot.firstSeq + p.2))

/-- What a forge state reads of an entry. -/
def LogEntry.forgePart (e : LogEntry) : LogEntry :=
  { seq := e.seq, forge := e.forge, createdAt := if e.forge.isEmpty then none else e.createdAt }

theorem foldEntry_forgePart (s : ForgeState) (e : LogEntry) :
    s.foldEntry e.forgePart = s.foldEntry e := by
  unfold ForgeState.foldEntry LogEntry.forgePart
  cases hforge : e.forge.isEmpty <;> simp

theorem foldl_forgePart (s : ForgeState) (es : List LogEntry) :
    (es.map LogEntry.forgePart).foldl ForgeState.foldEntry s =
      es.foldl ForgeState.foldEntry s := by
  rw [List.foldl_map]
  exact congrArg (fun f => es.foldl f s)
    (funext fun s => funext fun e => foldEntry_forgePart s e)

/-- A second build with the times of the first folds alike. -/
theorem Origin.Wrote.rebuilt_forgePart {o : Origin} (h : o.Wrote) {reqs : List PublishRequest}
    (hjob : o.job = .batch reqs) {clock : ℕ → Timestamp} (htimed : o.forgeTimed reqs clock) :
    (o.rebuilt reqs clock).map LogEntry.forgePart = o.slot.bytes.map LogEntry.forgePart := by
  obtain ⟨written, es, hes, -, hbytes⟩ := h
  rw [hjob] at hes
  cases hes
  refine List.ext_getElem? fun k => ?_
  have hfirst := buildEntries_getElem? o.attempt.writer o.attempt.startedAt written
    o.slot.firstSeq (accepted reqs (verifyBatch o.attempt.basis reqs).1) k
  rw [List.getElem?_map, List.getElem?_map, Origin.rebuilt, buildEntries_getElem?]
  cases hm : (accepted reqs (verifyBatch o.attempt.basis reqs).1)[k]? with
  | none => rw [hbytes, withNonce_getElem?_map, hfirst, hm]; rfl
  | some m =>
    rw [hm, Option.map_some] at hfirst
    obtain ⟨e, he, heq⟩ := withNonce_getElem? o.slot.nonce hfirst
    rw [← hbytes] at he
    have hmem : ((m, e), k) ∈ ((accepted reqs (verifyBatch o.attempt.basis reqs).1).zip
        o.slot.bytes).zipIdx :=
      List.mem_zipIdx_iff_getElem?.mpr (List.getElem?_zip_eq_some.mpr ⟨hm, he⟩)
    have hat := List.all_eq_true.mp htimed _ hmem
    have hseq : e.seq = o.slot.firstSeq + k := by rw [heq]; rfl
    have hforge : e.forge = m.2 := by rw [heq]; rfl
    have htime : e.createdAt = some (m.1.createdAt.getD (written (o.slot.firstSeq + k))) := by
      rw [heq]
      rfl
    simp only [Bool.or_eq_true, decide_eq_true_eq, hforge] at hat
    simp only [he, Option.map_some, LogEntry.forgePart, buildEntry, hseq, hforge, htime,
      Option.some.injEq, LogEntry.mk.injEq, and_true, true_and]
    cases hown : m.1.createdAt with
    | some ts => rfl
    | none =>
      rcases hat with (hsome | hempty) | hclock
      · rw [hown] at hsome
        cases hsome
      · rw [if_pos hempty, if_pos hempty]
      · rw [htime, hown] at hclock
        rw [hclock]
        rfl

/-- A finished batch whose second build has the durable times is a piece of the log. -/
theorem Inv.foldEntries_rebuilt (h : Inv cfg w) {o : Origin} (ho : Committed w o)
    {reqs : List PublishRequest} (hjob : o.job = .batch reqs) {clock : ℕ → Timestamp}
    (htimed : o.forgeTimed reqs clock) {f : ForgeState} (hf : f.On w) :
    (f.foldEntries o.attempt.basis.manifest.headSeq (o.rebuilt reqs clock)).On w := by
  have hclaim := h.claims o (h.claimed o ho)
  obtain ⟨g, hg, ho⟩ := ho
  have hspan := h.chain.span hg ho le_rfl hclaim.burned.1
  have hsame : f.foldEntries o.attempt.basis.manifest.headSeq (o.rebuilt reqs clock) =
      f.foldEntries o.attempt.basis.manifest.headSeq o.slot.bytes := by
    unfold ForgeState.foldEntries
    rw [← foldl_forgePart, hclaim.wrote.rebuilt_forgePart hjob htimed, foldl_forgePart]
  rw [hsame, ← hspan]
  exact Catchup.Fold.Reached.foldFrom hf h.ordered _ _

/-- A committed task is finished with the times it made durable. -/
def Task.forgeTimed (task : Task) (clock : ℕ → Timestamp) : Bool :=
  match task.phase, task.job with
  | .committed a σ _ _, .batch reqs => (⟨task.job, a, σ⟩ : Origin).forgeTimed reqs clock
  | _, _ => true

/-- What a committed batch folds is a second build of what it made durable. -/
theorem Handle.Holds.foldTask {P : ForgeState → World → Prop} {handle : Handle}
    (hh : handle.Holds P w) (h : Inv cfg w) {t : ℕ} {task : Task} (ht : w.tasks t = some task)
    {clock : ℕ → Timestamp}
    (hfold : ∀ (o : Origin) reqs, Committed w o → o.job = .batch reqs →
      (task.forgeTimed clock → o.forgeTimed reqs clock) → ∀ f, P f w →
        P (f.foldEntries o.attempt.basis.manifest.headSeq (o.rebuilt reqs clock)) w) :
    (handle.foldTask task clock).Holds P w := by
  unfold Handle.foldTask
  split
  · rename_i a σ _ _ reqs hphase hjob
    have hok := h.tasks t task ht
    simp only [TaskOk, hphase] at hok
    refine ⟨hh.held, fun f hf => ?_⟩
    obtain ⟨f₀, hf₀, rfl⟩ := Option.map_eq_some_iff.mp hf
    refine hfold ⟨task.job, a, σ⟩ reqs hok hjob (fun htimed => ?_) f₀ (hh.forge f₀ hf₀)
    simpa only [Task.forgeTimed, hphase, hjob] using htimed
  · exact hh

/-- Without forge events only the position moves. -/
theorem foldl_foldEntry_bare {es : List LogEntry} (hbare : ∀ e ∈ es, e.forge = [])
    (s : ForgeState) : es.foldl ForgeState.foldEntry s =
      { s with seq := (es.foldl ForgeState.foldEntry s).seq } := by
  induction es generalizing s with
  | nil => rfl
  | cons e es ih =>
    obtain ⟨hfirst, hrest⟩ := List.forall_mem_cons.mp hbare
    have hnext : s.foldEntry e = { s with seq := (s.foldEntry e).seq } := by
      unfold ForgeState.foldEntry
      split_ifs <;> simp_all
    rw [List.foldl_cons, ih hrest, hnext]

/-- The manifest of a checkpoint counts an item, or its log has no forge events. -/
def World.forgeStored (w : World) (m : Manifest) : Bool :=
  0 < m.forgeNextNumber ||
    (committedEntries w.gens).all fun e => m.headSeq < e.seq || e.forge.isEmpty

/-- A checkpoint made of a committed manifest has the forge state of its log. -/
theorem draft_kept (h : Inv cfg w) {view : PublicationView}
    (hview : ∃ g ∈ w.gens, g.manifest = view.manifest) {forge : Option ForgeState}
    (hforge : ∀ f ∈ forge, f.On w) (hstored : w.forgeStored view.manifest)
    {createdAt firstStateAt asOf : Option Timestamp} {cp : CheckpointRef}
    (hdraft : view.draft forge createdAt firstStateAt asOf = some cp) : cp.Kept w := by
  obtain ⟨g, hg, hm⟩ := hview
  have hseq : (forgeAt w view.manifest.headSeq).seq = view.manifest.headSeq :=
    hm ▸ h.seq_forgeAt hg
  have hon := ForgeState.On.forgeAt h view.manifest.headSeq
  suffices hstate : cp.forgeState = forgeAt w view.manifest.headSeq ∧
      cp.seq = view.manifest.headSeq by
    obtain ⟨hstate, hcp⟩ := hstate
    exact ⟨hstate ▸ hon, by rw [hstate, hcp, hseq]⟩
  unfold PublicationView.draft at hdraft
  simp only at hdraft
  split_ifs at hdraft with hcounts
  · split at hdraft
    · rename_i f
      split_ifs at hdraft with hle
      cases hdraft
      refine ⟨?_, rfl⟩
      have hf := (hforge f rfl).eq_forgeAt
      have hrebuild : ForgeState.fromHistory ⟨(forgeAt w view.manifest.headSeq).seq,
          (forgeAt w f.seq).records.filter fun r => r.seq ≤ view.manifest.headSeq⟩ =
          forgeAt w view.manifest.headSeq := h.rebuild_history ForgeState.recorded rfl hle
      rw [hseq, ← hf] at hrebuild
      exact hrebuild
    · cases hdraft
  · cases hdraft
    refine ⟨?_, rfl⟩
    have hbare : ∀ e ∈ upTo LogEntry.seq view.manifest.headSeq (committedEntries w.gens),
        e.forge = [] := by
      intro e he
      obtain ⟨hmem, hle⟩ := List.mem_filter.mp he
      have hall := (Bool.or_eq_true _ _).mp hstored |>.resolve_left (by simpa using hcounts)
      have hone := List.all_eq_true.mp hall e hmem
      simp only [Bool.or_eq_true, decide_eq_true_eq, List.isEmpty_iff] at hone hle
      exact hone.resolve_left (not_lt.mpr hle)
    have hfold : forgeAt w view.manifest.headSeq =
        { ForgeState.empty with seq := (forgeAt w view.manifest.headSeq).seq } :=
      foldl_foldEntry_bare hbare .empty
    rw [hfold, hseq]
    rfl

end Folds

section Loads

variable [Text.CharTables] {cfg : Config} {P : ForgeState → World → Prop} {w w' : World}
  {g : Generation}

/-- What a reader got, a later reader gets. -/
theorem readLog_grows (h : Inv cfg w) (h' : Inv cfg w') (hgrows : w.Grows w') (hg : g ∈ w.gens)
    {a : ℕ} (ha : g.manifest.checkpointSeq ≤ a) :
    w'.readLog g.manifest a g.manifest.headSeq = w.readLog g.manifest a g.manifest.headSeq := by
  obtain ⟨new, hlog, hnew⟩ := hgrows.log
  have hlater : between LogEntry.seq a g.manifest.headSeq new = [] := by
    refine List.filter_eq_nil_iff.mpr fun e he => ?_
    have := hnew e he _ (Or.inr ⟨g, hg, rfl⟩)
    simp only [Bool.and_eq_true, decide_eq_true_eq]
    omega
  rw [h'.readLog (hgrows.gens hg) ha le_rfl, h.readLog hg ha le_rfl, hlog, between,
    List.filter_append]
  exact congrArg some ((congrArg _ hlater).trans (List.append_nil _))

/-- Where a call resumes is not below the checkpoint. -/
theorem forgeStart_holds (hP : Standing cfg P) (h : Inv cfg w) (hg : g ∈ w.gens)
    (hkept : ∀ cp, g.manifest.checkpoint = some cp → cp.Holds P w) (handle : Handle) :
    (∀ f ∈ (handle.forgeStart g.manifest).1, P f w) ∧
      g.manifest.checkpointSeq ≤ (handle.forgeStart g.manifest).2 := by
  obtain ⟨hstate, hseq⟩ := checkpointForge_holds hP h hkept
  have hloaded : ∀ f ∈ some (Copy.forgeEnsure.checkpointForge g.manifest), P f w :=
    fun f hf => Option.some.inj hf ▸ hstate
  unfold Handle.forgeStart
  cases hforge : handle.forge with
  | none => exact ⟨hloaded, hseq.ge⟩
  | some s =>
    simp only
    split_ifs with hresume
    · refine ⟨by simp, ?_⟩
      obtain ⟨gens, hsuffix⟩ := exists_suffix hg
      have hmin := (h.chain.suffix hsuffix).logSpec.minSeq
      simp only [Manifest.checkpointSeq] at hmin ⊢
      cases hcp : g.manifest.checkpoint with
      | none => simp
      | some cp =>
        simp only [hcp, Option.isSome_some, if_true] at hmin
        omega
    · exact ⟨hloaded, hseq.ge⟩

theorem foldRead_holds (hP : Standing cfg P) (h : Inv cfg w) (hg : g ∈ w.gens) {handle : Handle}
    (hh : handle.Holds P w) {fresh : Option ForgeState} (hfresh : ∀ f ∈ fresh, P f w) {after : ℕ}
    (hafter : g.manifest.checkpointSeq ≤ after) {entries : List LogEntry}
    (hread : w.readLog g.manifest after g.manifest.headSeq = some entries) :
    (handle.foldRead fresh after entries).Holds P w := by
  refine ⟨hh.held, fun f hf => ?_⟩
  obtain ⟨f₀, hf₀, rfl⟩ := Option.map_eq_some_iff.mp hf
  refine hP.foldEntries ?_ h hg hafter hread
  split at hf₀
  · exact hh.forge f₀ hf₀
  · exact hfresh f₀ hf₀
  · rename_i f₁ s hheld
    split_ifs at hf₀
    · exact hfresh f₀ hf₀
    · exact hh.forge f₀ (hheld.trans hf₀)

theorem forgeEnsure_holds (hP : Standing cfg P) (h : Inv cfg w) (hg : g ∈ w.gens)
    (hkept : ∀ cp, g.manifest.checkpoint = some cp → cp.Holds P w) {c c' : Copy}
    (hc : c.handle.Holds P w) (hheld : c.handle.manifest = g.manifest)
    (hensure : c.forgeEnsure (w.readLog g.manifest) = some c') : c'.handle.Holds P w := by
  rw [forgeEnsure_eq_calls, hheld] at hensure
  simp only at hensure
  split_ifs at hensure
  · exact Option.some.inj hensure ▸ hc
  · obtain ⟨entries, hread, rfl⟩ := Option.map_eq_some_iff.mp hensure
    obtain ⟨hfresh, hafter⟩ := forgeStart_holds hP h hg hkept c.handle
    exact foldRead_holds hP h hg hc hfresh hafter hread

end Loads

namespace Cluster

variable [Text.CharTables] {cfg : Config} {P : ForgeState → World → Prop} {s s' : Cluster}

/-- The invariant: every forge state anybody holds or stored is a fold of the log. -/
structure Forged (cfg : Config) (s : Cluster) : Prop where
  world : Inv cfg s.world
  seen : ∀ t task, s.world.tasks t = some task → task.Seen s.world
  handles : ∀ i handle, s.handles i = some handle → handle.Forged s.world
  views : ∀ v ∈ s.views, ∃ g ∈ s.world.gens, g.manifest = v.manifest
  drafts : ∀ d ∈ s.drafts, d.2.Kept s.world
  checkpoints : ∀ cp, s.world.Checkpointed cp → cp.Kept s.world
  adoptions : ∀ p ∈ s.adoptions, ∃ g ∈ s.world.gens, g.manifest = p.manifest

/-- A finished batch is folded with the times it made durable, and a checkpoint is taken of a
manifest that counts an item or of a log without forge events. -/
def keepsForge (s : Cluster) : Deed → Bool
  | .finish t clock => (s.world.tasks t).all fun task => task.forgeTimed clock
  | .draft _ k .. => (s.views[k]?).all fun v => s.world.forgeStored v.manifest
  | _ => true

/-- Every forge state anybody holds or stored has the property. -/
structure Holds (P : ForgeState → World → Prop) (cfg : Config) (s : Cluster) : Prop where
  world : Inv cfg s.world
  seen : ∀ t task, s.world.tasks t = some task → task.Seen s.world
  handles : ∀ i handle, s.handles i = some handle → handle.Holds P s.world
  views : ∀ v ∈ s.views, ∃ g ∈ s.world.gens, g.manifest = v.manifest
  drafts : ∀ d ∈ s.drafts, d.2.Holds P s.world
  checkpoints : ∀ cp, s.world.Checkpointed cp → cp.Holds P s.world
  adoptions : ∀ p ∈ s.adoptions, ∃ g ∈ s.world.gens, g.manifest = p.manifest

theorem forged_iff : Forged cfg s ↔ Holds ForgeState.On cfg s :=
  ⟨fun h => ⟨h.world, h.seen, fun i handle hi => Handle.forged_iff.mp (h.handles i handle hi),
      h.views, fun d hd => CheckpointRef.kept_iff.mp (h.drafts d hd),
      fun cp hcp => CheckpointRef.kept_iff.mp (h.checkpoints cp hcp), h.adoptions⟩,
    fun h => ⟨h.world, h.seen, fun i handle hi => Handle.forged_iff.mpr (h.handles i handle hi),
      h.views, fun d hd => CheckpointRef.kept_iff.mpr (h.drafts d hd),
      fun cp hcp => CheckpointRef.kept_iff.mpr (h.checkpoints cp hcp), h.adoptions⟩⟩

theorem Holds.setWorld (hP : Standing cfg P) (h : Holds P cfg s) {a : Action} {w : World}
    (hstep : Walgit.step cfg s.world a = some w)
    (hdraft : ∀ cp, a.Checkpoints cp → ∃ d ∈ s.drafts, d.2 = cp) :
    Holds P cfg { s with world := w } := by
  have h' := h.world.step a hstep
  have hgrows := step_grows h.world hstep
  have generated : ∀ m : Manifest, (∃ g ∈ s.world.gens, g.manifest = m) →
      ∃ g ∈ w.gens, g.manifest = m := fun m ⟨g, hg, hm⟩ => ⟨g, hgrows.gens hg, hm⟩
  have kept : ∀ cp : CheckpointRef, cp.Holds P s.world → cp.Holds P w :=
    fun cp hcp => ⟨hP.grows hcp.state h' hgrows, hcp.seq⟩
  refine ⟨h', step_seen h.world hstep h.seen,
    fun i handle hi => (h.handles i handle hi).grows hP h' hgrows,
    fun v hv => generated _ (h.views v hv), fun d hd => kept _ (h.drafts d hd), fun cp hcp => ?_,
    fun p hp => generated _ (h.adoptions p hp)⟩
  rcases step_checkpointed h.world hstep hcp with hold | hnew
  · exact kept cp (h.checkpoints cp hold)
  · obtain ⟨d, hd, rfl⟩ := hdraft cp hnew
    exact kept d.2 (h.drafts d hd)

/-- A handle changes; copies on disk have no forge state. -/
theorem Holds.setHandle (h : Holds P cfg s) (i : ℕ) {handle : Handle}
    (hhandle : handle.Holds P s.world) :
    Holds P cfg { s with handles := Function.update s.handles i (some handle) } := by
  refine ⟨h.world, h.seen, fun j handle' hj => ?_, h.views, h.drafts, h.checkpoints, h.adoptions⟩
  change Function.update s.handles i (some handle) j = some handle' at hj
  rw [Function.update_apply] at hj
  split_ifs at hj
  · exact Option.some.inj hj ▸ hhandle
  · exact h.handles j handle' hj

theorem Holds.copy (h : Holds P cfg s) {i : ℕ} {c : Copy} (hc : s.copy i = some c) :
    c.handle.Holds P s.world := h.handles i c.handle (copy_eq_some.mp hc).1

theorem Holds.setCopy (h : Holds P cfg s) (i : ℕ) {c : Copy} (hc : c.handle.Holds P s.world) :
    Holds P cfg (s.setCopy i c) := by
  have h' := h.setHandle i hc
  exact ⟨h'.world, h'.seen, h'.handles, h'.views, h'.drafts, h'.checkpoints, h'.adoptions⟩

theorem Holds.settleTask (hP : Standing cfg P) (h : Holds P cfg s) {t : ℕ} {task : Task}
    {c c' : Copy} {fault : Option CommitFault} (ht : s.world.tasks t = some task)
    (hc : c.handle.Holds P s.world)
    (hsettle : s.settleTask task fault c = some c') : c'.handle.Holds P s.world := by
  have hseen := h.seen t task ht
  unfold Cluster.settleTask at hsettle
  cases hphase : task.phase with
  | committed a σ m v =>
    simp only [Task.Seen, hphase] at hseen
    obtain ⟨⟨g, hg, rfl, -⟩, -⟩ := hseen
    simp only [hphase] at hsettle
    split at hsettle <;> cases hsettle
    · exact Copy.settleBatch_holds hP h.world hg hc _ _ _ _
    · exact Copy.settleOne_holds hP h.world hg hc _ _ _ _
  | _ => simp [hphase] at hsettle

/-- One deed. What is left to show is that finished batches and drafted checkpoints keep the
property. -/
theorem Holds.step (hP : Standing cfg P) (h : Holds P cfg s) {d : Deed}
    (hfinish : ∀ t clock task (handle : Handle), d = .finish t clock → s.world.tasks t = some task →
      handle.Holds P s.world → (handle.foldTask task clock).Holds P s.world)
    (hdraft : ∀ i k createdAt firstStateAt asOf view forge cp,
      d = .draft i k createdAt firstStateAt asOf → s.views[k]? = some view →
        (∃ g ∈ s.world.gens, g.manifest = view.manifest) → (∀ f ∈ forge, P f s.world) →
          view.draft forge createdAt firstStateAt asOf = some cp → cp.Holds P s.world)
    (hstep : step cfg s d = some s') : Holds P cfg s' := by
  cases d with
  | store a =>
    obtain ⟨w, hremote, hw', rfl⟩ := step_store hstep
    refine h.setWorld hP hw' ?_
    rintro cp ⟨_, _, _, _, _, _, _, rfl⟩
    cases hremote
  | start i t job =>
    obtain ⟨_, w, -, hw', rfl⟩ := step_start hstep
    have h' := h.setWorld hP hw' fun cp ⟨_, _, _, _, _, _, _, heq⟩ => by cases heq
    exact { h' with }
  | pin t =>
    obtain ⟨_, _, _, -, -, -, -, rfl⟩ := step_pin hstep
    exact { h with }
  | capture t policy writer startedAt lastEntryTime =>
    obtain ⟨_, _, _, _, w, -, -, -, -, -, hw', rfl⟩ := step_capture hstep
    have h' := h.setWorld hP hw' fun cp ⟨_, _, _, _, _, _, _, heq⟩ => by cases heq
    exact { h' with }
  | settle t fault =>
    obtain ⟨task, i, c, c', ht, -, hc, -, hsettle, rfl⟩ := step_settle hstep
    have h' := h.setCopy i (h.settleTask hP ht (h.copy hc) hsettle)
    exact { h' with }
  | finish t clock =>
    obtain ⟨task, i, handle, w, ht, -, hhandle, -, hw', rfl⟩ := step_finish hstep
    have hfolded := hfinish t clock task handle rfl ht (h.handles i handle hhandle)
    have h' := h.setWorld hP hw' fun cp ⟨_, _, _, _, _, _, _, heq⟩ => by cases heq
    exact h'.setHandle i (hfolded.grows hP h'.world (step_grows h.world hw'))
  | sync i fault =>
    obtain ⟨c, m, v, hc, hcur, rfl⟩ := step_sync hstep
    exact h.setCopy i (Copy.sync_holds hP h.world hcur (h.copy hc) fault)
  | rematerialize i fault =>
    obtain ⟨c, m, v, hc, hcur, rfl⟩ := step_rematerialize hstep
    exact h.setCopy i (Copy.rematerialize_holds hP h.world hcur (h.copy hc) fault)
  | openRepo site fault =>
    obtain ⟨m, v, -, hcur, hopened⟩ := step_openRepo hstep
    have hnew := Copy.opened_holds hP h.world hcur site ((s.disks site).getD .init) fault
    rcases hopened with ⟨-, rfl⟩ | ⟨-, rfl⟩
    · have h' := h.setCopy s.nextHandle hnew
      exact { h' with }
    · exact { h with }
  | evict site =>
    obtain rfl := step_evict hstep
    exact { h with }
  | stop site =>
    obtain rfl := step_stop hstep
    exact { h with
      handles := fun i handle hi => h.handles i handle (Option.filter_eq_some_iff.mp hi).1 }
  | forgeEnsure i =>
    obtain ⟨c, c', hc, hensure, rfl⟩ := step_forgeEnsure hstep
    have hheld' := h.copy hc
    obtain ⟨g, hg, hm⟩ := hheld'.held
    rw [← hm] at hensure
    exact h.setCopy i (forgeEnsure_holds hP h.world hg
      (fun cp hcp => h.checkpoints cp (Or.inl ⟨g, hg, hcp⟩)) hheld' hm.symm hensure)
  | view i =>
    obtain ⟨c, m, v, hc, hcur, -, rfl⟩ := step_view hstep
    have hheld' := Copy.sync_holds hP h.world hcur (h.copy hc) none
    have h' := h.setCopy i hheld'
    exact { h' with
      views := fun view hview => by
        rcases List.mem_cons.mp hview with rfl | hview
        · exact hheld'.held
        · exact h.views view hview }
  | draft i k createdAt firstStateAt asOf =>
    obtain ⟨handle, view, cp, hhandle, hview, -, hcp, rfl⟩ := step_draft hstep
    have hkept := hdraft i k createdAt firstStateAt asOf view handle.forge cp rfl hview
      (h.views view (List.mem_of_getElem? hview)) (h.handles i handle hhandle).forge hcp
    exact { h with
      drafts := fun d hd => by
        rcases List.mem_cons.mp hd with rfl | hd
        · exact hkept
        · exact h.drafts d hd }
  | rewrite i job policy writer now reply =>
    obtain ⟨handle, version, w, m, -, -, hdrafted, hw', hm, hs'⟩ := step_rewrite hstep
    have h' := h.setWorld hP hw' fun cp ⟨view, _, _, _, _, _, _, heq⟩ => by
      cases heq
      exact ⟨(view, cp), by simpa [drafted] using hdrafted, rfl⟩
    rcases hs' with rfl | ⟨rfl, hacc, rfl⟩
    · exact h'
    · obtain ⟨g, hg, hgm, -⟩ := rewrite_generated hw' hm hacc
      exact { h' with
        adoptions := fun p hp => by
          rcases List.mem_cons.mp hp with rfl | hp
          · exact ⟨g, hg, hgm⟩
          · exact h'.adoptions p hp }
  | adopt k saves =>
    obtain ⟨p, c, hp, -, hc, rfl⟩ := step_adopt hstep
    have h' := h.setCopy p.handle (Copy.adoptWrite_holds (h.adoptions p hp) (h.copy hc) saves)
    exact { h' with adoptions := fun q hq => h.adoptions q (List.mem_of_mem_eraseIdx hq) }

theorem Forged.step (h : Forged cfg s) {d : Deed} (hkeeps : s.keepsForge d = true)
    (hstep : step cfg s d = some s') : Forged cfg s' := by
  refine forged_iff.mpr ((forged_iff.mp h).step standing_on (fun t clock task handle hd ht hh => ?_)
    (fun i k createdAt firstStateAt asOf view forge cp hd hview hheld hforge hcp => ?_) hstep)
  · have htimed : task.forgeTimed clock := by simpa [hd, keepsForge, ht] using hkeeps
    exact hh.foldTask h.world ht fun o reqs ho hjob hbatch f hf =>
      h.world.foldEntries_rebuilt ho hjob (hbatch htimed) hf
  · have hstored : s.world.forgeStored view.manifest := by
      simpa [hd, keepsForge, hview] using hkeeps
    exact CheckpointRef.kept_iff.mp (draft_kept h.world hheld hforge hstored hcp)

end Cluster

namespace ForgeLoads

section Steps

variable [Text.CharTables] {cfg : Config} {P : ForgeState → World → Prop} {s s' : ForgeLoads}
  {w w' : World}

/-- A call was asked at a committed manifest, and what it read is the log above where it resumes. -/
def Underway (w : World) : ForgeLoad → Prop
  | .asked _ m => ∃ g ∈ w.gens, g.manifest = m
  | .read _ fresh after entries => (∀ f ∈ fresh, f.On w) ∧
      ∃ g ∈ w.gens, g.manifest.checkpointSeq ≤ after ∧
        w.readLog g.manifest after g.manifest.headSeq = some entries

/-- The same with a property for the states it starts from. -/
def Reads (P : ForgeState → World → Prop) (w : World) : ForgeLoad → Prop
  | .asked _ m => ∃ g ∈ w.gens, g.manifest = m
  | .read _ fresh after entries => (∀ f ∈ fresh, P f w) ∧
      ∃ g ∈ w.gens, g.manifest.checkpointSeq ≤ after ∧
        w.readLog g.manifest after g.manifest.headSeq = some entries

theorem underway_iff {load : ForgeLoad} : Underway w load ↔ Reads ForgeState.On w load := by
  cases load <;> exact Iff.rfl

theorem Reads.grows (hP : Standing cfg P) {load : ForgeLoad} (hload : Reads P w load)
    (h : Inv cfg w) (h' : Inv cfg w') (hgrows : w.Grows w') : Reads P w' load := by
  cases load with
  | asked i m =>
    obtain ⟨g, hg, hm⟩ := hload
    exact ⟨g, hgrows.gens hg, hm⟩
  | read i fresh after entries =>
    obtain ⟨hfresh, g, hg, hafter, hread⟩ := hload
    exact ⟨fun f hf => hP.grows (hfresh f hf) h' hgrows, g, hgrows.gens hg, hafter,
      (readLog_grows h h' hgrows hg hafter).trans hread⟩

structure Forged (cfg : Config) (s : ForgeLoads) : Prop where
  cluster : s.cluster.Forged cfg
  loads : ∀ load ∈ s.loads, Underway s.cluster.world load

structure Holds (P : ForgeState → World → Prop) (cfg : Config) (s : ForgeLoads) : Prop where
  cluster : s.cluster.Holds P cfg
  loads : ∀ load ∈ s.loads, Reads P s.cluster.world load

theorem forged_iff : Forged cfg s ↔ Holds ForgeState.On cfg s :=
  ⟨fun h => ⟨Cluster.forged_iff.mp h.cluster, fun l hl => underway_iff.mp (h.loads l hl)⟩,
    fun h => ⟨Cluster.forged_iff.mpr h.cluster, fun l hl => underway_iff.mpr (h.loads l hl)⟩⟩

/-- The deeds of the system keep forge states on the log. -/
def keepsForge (s : ForgeLoads) : LoadEvent → Bool
  | .deed d => s.cluster.keepsForge d
  | _ => true

/-- One event. What is left to show is that the deeds of the system keep the property. -/
theorem Holds.step (hP : Standing cfg P) (h : Holds P cfg s) {e : LoadEvent}
    (hdeed : ∀ d c, e = .deed d → s.cluster.step cfg d = some c → c.Holds P cfg)
    (hstep : step cfg s e = some s') : Holds P cfg s' := by
  cases e with
  | deed d =>
    obtain ⟨cluster, hcluster, rfl⟩ := Option.map_eq_some_iff.mp hstep
    have h' := hdeed d cluster rfl hcluster
    refine ⟨h', fun load hload => ?_⟩
    have hgrows : s.cluster.world.Grows cluster.world := by
      rcases Cluster.step_world hcluster with hsame | ⟨a, ha, -⟩
      · exact hsame ▸ World.Grows.refl _
      · exact step_grows h.cluster.world ha
    exact (h.loads load hload).grows hP h.cluster.world h'.world hgrows
  | ask i =>
    simp only [ForgeLoads.step, Option.bind_eq_bind, Option.bind_eq_some_iff,
      Option.some.injEq] at hstep
    obtain ⟨handle, hhandle, rfl⟩ := hstep
    refine ⟨h.cluster, fun load hload => ?_⟩
    rcases List.mem_cons.mp hload with rfl | hload
    · exact (h.cluster.handles i handle hhandle).held
    · exact h.loads load hload
  | read k =>
    simp only [ForgeLoads.step, Option.bind_eq_bind, Option.bind_eq_some_iff] at hstep
    obtain ⟨load, hload, hstep⟩ := hstep
    cases load with
    | read => cases hstep
    | asked i m =>
      obtain ⟨handle, hhandle, hstep⟩ := Option.bind_eq_some_iff.mp hstep
      split_ifs at hstep
      · cases hstep
        exact ⟨h.cluster, fun load hl => h.loads load (List.mem_of_mem_eraseIdx hl)⟩
      · obtain ⟨entries, hread, hstep⟩ := Option.bind_eq_some_iff.mp hstep
        cases hstep
        obtain ⟨g, hg, rfl⟩ := h.loads _ (List.mem_of_getElem? hload)
        obtain ⟨hfresh, hafter⟩ := forgeStart_holds hP h.cluster.world hg
          (fun cp hcp => h.cluster.checkpoints cp (Or.inl ⟨g, hg, hcp⟩)) handle
        refine ⟨h.cluster, fun load hl => ?_⟩
        rcases List.mem_or_eq_of_mem_set hl with hl | rfl
        · exact h.loads load hl
        · exact ⟨hfresh, g, hg, hafter, hread⟩
  | fold k =>
    simp only [ForgeLoads.step, Option.bind_eq_bind, Option.bind_eq_some_iff] at hstep
    obtain ⟨load, hload, hstep⟩ := hstep
    cases load with
    | asked => cases hstep
    | read i fresh after entries =>
      obtain ⟨handle, hhandle, hstep⟩ := Option.bind_eq_some_iff.mp hstep
      cases hstep
      obtain ⟨hfresh, g, hg, hafter, hread⟩ := h.loads _ (List.mem_of_getElem? hload)
      have hfolded := foldRead_holds hP h.cluster.world hg (h.cluster.handles i handle hhandle)
        hfresh hafter hread
      exact ⟨h.cluster.setHandle i hfolded,
        fun load hl => h.loads load (List.mem_of_mem_eraseIdx hl)⟩

theorem Forged.step (h : Forged cfg s) {e : LoadEvent} (hkeeps : s.keepsForge e = true)
    (hstep : step cfg s e = some s') : Forged cfg s' := by
  refine forged_iff.mpr ((forged_iff.mp h).step standing_on (fun d c he hc => ?_) hstep)
  subst he
  exact Cluster.forged_iff.mp (h.cluster.step hkeeps hc)

theorem holds_created (P : ForgeState → World → Prop) (cfg : Config)
    (access : Option RepoAccess) (now : Timestamp) (writer : String) :
    Holds P cfg (created (createdManifest access now writer)) where
  cluster := {
    world := inv_created access now writer
    seen := by simp [created, Cluster.created, World.created]
    handles := by simp [created, Cluster.created]
    views := by simp [created, Cluster.created]
    drafts := by simp [created, Cluster.created]
    checkpoints := by
      rintro cp (⟨g, hg, hcp⟩ | ⟨_, _, hwire, -⟩)
      · simp only [created, Cluster.created, World.created, List.mem_singleton] at hg
        subst hg
        simp [createdManifest] at hcp
      · simp [created, Cluster.created, World.created] at hwire
    adoptions := by simp [created, Cluster.created] }
  loads := by simp [created]

/-- In every run whose deeds keep forge states on the log, a handle without a forge state that
holds a committed manifest loads the fold of the log committed by then. -/
theorem cold_load_exact {access : Option RepoAccess} {now : Timestamp} {writer : String}
    {events : List LoadEvent}
    (hkeeps : Runs.AllSteps (step cfg) (fun s e => s.keepsForge e = true)
      (created (createdManifest access now writer)) events)
    (hrun : Runs.run (step cfg) (created (createdManifest access now writer)) events = some s)
    {g : Generation} {gens : List Generation} (hsuf : (g :: gens) <:+ s.cluster.world.gens)
    {c : Copy} (hheld : c.handle.manifest = g.manifest) (hcold : c.handle.forge = none) :
    (c.forgeEnsure (s.cluster.world.readLog g.manifest)).bind (fun c => c.handle.forge) =
      some (ofLog (committedEntries (g :: gens))) := by
  have h := Runs.invariant (I := Forged cfg) (fun _ _ _ h hok hstep => h.step hok hstep) hrun
    hkeeps (forged_iff.mpr (holds_created _ cfg access now writer))
  have hinv := h.cluster.world
  have hg : g ∈ s.cluster.world.gens := hsuf.subset List.mem_cons_self
  obtain ⟨hon, hseq⟩ := checkpointForge_holds standing_on hinv
    fun cp hcp => CheckpointRef.kept_iff.mp (h.cluster.checkpoints cp (Or.inl ⟨g, hg, hcp⟩))
  set loaded := Copy.forgeEnsure.checkpointForge g.manifest
  have hread := hinv.readLog hg hseq.ge le_rfl
  set tail := between LogEntry.seq loaded.seq g.manifest.headSeq
    (committedEntries s.cluster.world.gens) with htail
  have hfold : loaded.foldEntries loaded.seq tail = ofLog (committedEntries (g :: gens)) := by
    have hle := (hinv.chain.suffix hsuf).logSpec.checkpoint_le_head
    rw [ForgeState.foldEntries, if_neg (lt_irrefl _), ofLog, ← hinv.chain.upTo_head hsuf,
      ← Replay.upTo_append_between hinv.chain.sorted hle, List.foldl_append, ← hseq, ← htail]
    exact congrArg (List.foldl ForgeState.foldEntry · tail) hon.eq_forgeAt
  have hstart : c.handle.forgeStart g.manifest = (some loaded, loaded.seq) := by
    simp only [Handle.forgeStart, hcold, loaded]
  rw [forgeEnsure_eq_calls, hheld]
  simp only [hcold, hstart, hread, Option.any_none, Bool.false_eq_true, if_false, Option.map_some,
    Option.bind_some, Handle.foldRead, hfold]

end Steps

section Runs

attribute [local instance] Text.asciiTables

def runShared (events : List LoadEvent) : Option ForgeLoads :=
  Runs.run (step ⟨3, List.length⟩) (created (createdManifest (some sharedAccess) ⟨1, 0⟩ "w")) events

/-- Two instances open the repository, and the first one publishes forge events. -/
def published (reqs : List PublishRequest) : List LoadEvent :=
  [.deed (.openRepo 0 none), .deed (.openRepo 1 none), .ask 0, .read 0, .fold 0] ++
    (Cluster.publish 0 1 "a" reqs).map .deed

/-- It commits a checkpoint of what it published, and the second one syncs. -/
def checkpointed (events : List LoadEvent) : List LoadEvent :=
  let drafted := events ++ [.deed (.view 0), .deed (.draft 0 0 none none none)]
  let written := ((runShared drafted).bind fun s => s.cluster.drafts.head?).toList.map fun d =>
    .deed (.rewrite 0 (.checkpoint d.1 d.2) ⟨"", .empty⟩ "w" ⟨4, 0⟩ .delivered)
  drafted ++ written ++ [.deed (.sync 1 none)]

/-- A label and an issue with it. -/
def issueWithLabel : List LoadEvent :=
  checkpointed (published [forgeRequest 0 (.label ⟨"bug", "#ff0000", "", false⟩),
    forgeRequest 0 (.opened ⟨.issue, "crash", "on start", ["bug"], [], "", "", "", "", false⟩)])

theorem cold_load_exact_issue :
    ∃ (s : ForgeLoads) (c : Copy), runShared issueWithLabel = some s ∧ s.cluster.copy 1 = some c ∧
      c.handle.manifest.checkpointSeq = 2 ∧
      (c.forgeEnsure (s.cluster.world.readLog c.handle.manifest)).bind (fun c => c.handle.forge) =
        some (ofLog (committedEntries s.cluster.world.gens)) := by
  have hrun : ((runShared issueWithLabel).bind fun s => s.cluster.world.gens.head?.bind fun g =>
      (s.cluster.copy 1).map fun c => decide (c.handle.manifest = g.manifest ∧
        c.handle.forge = none ∧ c.handle.manifest.checkpointSeq = 2)) = some true := by
    decide
  obtain ⟨s, hs, hrest⟩ := Option.bind_eq_some_iff.mp hrun
  obtain ⟨g, hhead, hrest⟩ := Option.bind_eq_some_iff.mp hrest
  obtain ⟨c, hc, heq⟩ := Option.map_eq_some_iff.mp hrest
  obtain ⟨hheld, hcold, hseq⟩ := of_decide_eq_true heq
  obtain ⟨gens, hgens⟩ := List.head?_eq_some_iff.mp hhead
  refine ⟨s, c, hs, hc, hseq, ?_⟩
  rw [hheld, hgens]
  exact cold_load_exact (by decide) hs (hgens ▸ List.suffix_rfl) hheld hcold

/-- A label alone. -/
def labelOnly : List LoadEvent :=
  checkpointed (published [forgeRequest 0 (.label ⟨"bug", "#ff0000", "", false⟩)])

/-- No item was opened: the checkpoint stores no history, and the label is gone. -/
theorem cold_load_loses_label :
    ∃ (s : ForgeLoads) (c : Copy) (f : ForgeState), runShared labelOnly = some s ∧
      s.cluster.copy 1 = some c ∧ s.cluster.world.gens.head?.map Generation.manifest =
        some c.handle.manifest ∧ c.handle.forge = none ∧
      (c.forgeEnsure (s.cluster.world.readLog c.handle.manifest)).bind (fun c => c.handle.forge) =
        some f ∧ f.labels.find? "bug" = none ∧
      (ofLog (committedEntries s.cluster.world.gens)).labels.find? "bug" ≠ none := by
  have hrun : ((runShared labelOnly).bind fun s => (s.cluster.copy 1).bind fun c =>
      ((c.forgeEnsure (s.cluster.world.readLog c.handle.manifest)).bind
        fun c => c.handle.forge).map fun f => decide
          (s.cluster.world.gens.head?.map Generation.manifest = some c.handle.manifest ∧
            c.handle.forge = none ∧ f.labels.find? "bug" = none ∧
            (ofLog (committedEntries s.cluster.world.gens)).labels.find? "bug" ≠ none)) =
      some true := by decide
  obtain ⟨s, hs, hrest⟩ := Option.bind_eq_some_iff.mp hrun
  obtain ⟨c, hc, hrest⟩ := Option.bind_eq_some_iff.mp hrest
  obtain ⟨f, hf, heq⟩ := Option.map_eq_some_iff.mp hrest
  obtain ⟨hcur, hcold, hlost, hlabel⟩ := of_decide_eq_true heq
  exact ⟨s, c, f, hs, hc, hcur, hcold, hf, hlost, hlabel⟩

end Runs

end ForgeLoads

end Walgit
