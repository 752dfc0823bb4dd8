import Walgit.PublisherSafety

/-!
# Runs of the publisher protocol

Each action keeps the invariant, so it holds along every run; the safety of committed
segments and the shape of every committed manifest are read off it.
-/
namespace Walgit

open ObjectStore (PutMode)

section Steps

variable {cfg : Config} {w w' : World}

theorem localStep_setTask {t : ℕ} {task : Task} (hleaves : ∀ a σ, task.phase ≠ .swapping a σ) :
    LocalStep w (w.setTask t task) t task [] where
  store := rfl
  gens := rfl
  claims := rfl
  nonces := fun _ hn => hn
  tasks := rfl
  wire := (List.append_nil _).symm
  leaves := hleaves
  swaps := by simp

theorem localStep_send {t : ℕ} {task : Task} {rs : List Request}
    (hleaves : ∀ a σ, task.phase ≠ .swapping a σ)
    (hswaps : ∀ mode m o, Request.swap mode m (some o) ∈ rs → Pending w o ∧ o.slot.task = t) :
    LocalStep w ((w.send rs).setTask t task) t task rs where
  store := rfl
  gens := rfl
  claims := rfl
  nonces := fun _ hn => hn
  tasks := rfl
  wire := rfl
  leaves := hleaves
  swaps := hswaps

theorem done_leaves {task : Task} {answers : List Answer} (a : Attempt) (σ : Slot) :
    (task.finishWith answers).phase ≠ .swapping a σ := by
  simp [Task.finishWith]

theorem retry_leaves (task : Task) (a : Attempt) (σ : Slot) :
    (task.retry cfg).phase ≠ .swapping a σ := by
  simp only [Task.retry]
  split_ifs <;> simp

theorem unsent_early {phase : Phase} (h : phase.unsent) : phase.early := by
  cases phase <;> simp_all [Phase.unsent, Phase.early]

theorem canHold_basisOk {a : Attempt} (h : w.canHold a.basis) : BasisOk w a := by
  intro v hv
  simp only [World.canHold, hv, World.held, List.any_eq_true, Bool.and_eq_true,
    decide_eq_true_eq] at h
  exact h

theorem mayRewrite_ok {job : MetaJob} {basis m : Manifest} {version : ℕ}
    {policy : PackPolicy} {writer : String} {now : Timestamp}
    (hmay : w.mayRewrite job basis version)
    (hedit : job.manifest basis policy writer now = some m) :
    RewriteOk w (.update version) m := by
  simp only [World.mayRewrite, World.held, Bool.and_eq_true, List.any_eq_true,
    decide_eq_true_eq] at hmay
  obtain ⟨⟨g, hg, rfl, rfl⟩, hview⟩ := hmay
  refine ⟨job, policy, writer, now, g, hg, rfl, hedit, ?_⟩
  rintro view cp rfl
  simp only [Bool.and_eq_true, List.any_eq_true, decide_eq_true_eq] at hview
  obtain ⟨⟨⟨⟨g', hg', hm⟩, hseq⟩, -⟩, -⟩ := hview
  exact ⟨hseq, g', hg', hm⟩

/-- Landing does not look at the rest of the wire. -/
theorem land_setWire (w : World) (ws : List Request) (r : Request) :
    ({ w with wire := ws }.land r) = { w.land r with wire := ws } := by
  match r with
  | .create seq bytes =>
    simp only [World.land]
    split <;> rfl
  | .delete seq version => rfl
  | .swap mode m origin =>
    simp only [World.land]
    split_ifs <;> rfl

theorem land_wire (w : World) (r : Request) : (w.land r).wire = w.wire := by
  rw [show w.land r = { w.land r with wire := w.wire } from land_setWire w w.wire r]

variable [Text.CharTables]

theorem captured_leaves (task : Task) (a a' : Attempt) (σ : Slot) :
    (captured task a).phase ≠ .swapping a' σ := by
  unfold captured
  split
  · simp [Task.finishWith]
  · split <;> simp [Task.finishWith]
  · simp [Task.goto]

theorem taskOk_retry {t : ℕ} {task : Task} (h : Idle w t) : TaskOk cfg w t (task.retry cfg) := by
  simp only [Task.retry]
  split_ifs
  · trivial
  · exact h

theorem taskOk_idle {t : ℕ} {task : Task} (hearly : task.phase.early) (h : TaskOk cfg w t task) :
    Idle w t := by
  obtain ⟨job, attempts, phase⟩ := task
  cases phase with
  | ready => exact h
  | claiming a seq burned => exact ClaimingOk.idle h
  | probing a seq burned probes => exact ClaimingOk.idle h
  | heading a seq burned probes => exact ClaimingOk.idle h
  | swapping a σ => exact h.1
  | rereading | confirming | committed | done | crashed => cases hearly

/-- Giving up sends nothing that can hurt. -/
theorem Inv.finishWith (h : Inv cfg w) {t : ℕ} {task : Task} {answers : List Answer} :
    Inv cfg (w.setTask t (task.finishWith answers)) :=
  (localStep_setTask done_leaves).inv h trivial (by simp)

theorem Inv.start (h : Inv cfg w) {t : ℕ} {job : Job} (hnew : w.tasks t = none) :
    Inv cfg (w.setTask t ⟨job, 0, .ready⟩) := by
  have hstep : LocalStep w (w.setTask t ⟨job, 0, .ready⟩) t ⟨job, 0, .ready⟩ [] :=
    localStep_setTask (by simp)
  have hfree : ∀ o ∈ w.claims, o.slot.task ≠ t := by
    intro o ho heq
    have howner := (h.claims o ho).owner
    rw [heq, hnew] at howner
    cases howner
  refine hstep.inv h ⟨fun o ho => ?_, fun mode m o hmem => ?_⟩ (by simp)
  · exact hfree o (h.claimed o (hstep.committed_iff.mp ho))
  · exact hfree o (h.wire _ hmem).1

theorem Inv.capture (h : Inv cfg w) {t : ℕ} {task : Task} {a : Attempt}
    (htask : w.tasks t = some task) (hphase : task.phase = .ready) (hhold : w.canHold a.basis) :
    Inv cfg (w.setTask t (captured task a)) := by
  have hidle : Idle w t := by
    have := h.tasks t task htask
    unfold TaskOk at this
    rwa [hphase] at this
  unfold captured
  split
  · exact h.finishWith
  · split <;> exact h.finishWith
  · rename_i e es hentries
    have hstep : LocalStep w (w.setTask t (task.goto
        (.claiming a (a.basis.manifest.headSeq + 1) []))) t _ [] :=
      localStep_setTask (by simp [Task.goto])
    refine hstep.inv h ?_ (by simp)
    exact
      { idle := hstep.idle_self hidle (by simp)
        basis := (canHold_basisOk hhold).mono hstep.extends'
        writes := ⟨_, _, e, es, hentries⟩
        swept := by simp
        range := ⟨Nat.lt_succ_self _, by simp⟩ }

/-- A claim loop may move between its phases as long as its burned list is in order. -/
theorem Inv.gotoClaiming (h : Inv cfg w) {t : ℕ} {task : Task} {a : Attempt} {seq seq' : ℕ}
    {burned burned' : List (ℕ × ℕ)} {phase : Phase}
    (hok : ClaimingOk w t task.job a seq burned)
    (hphase : phase = .claiming a seq' burned' ∨ (∃ n, phase = .probing a seq' burned' n) ∨
      ∃ n, phase = .heading a seq' burned' n)
    (hswept : ∀ b ∈ burned', b.2 < w.store.next)
    (hrange : BurnedTo a.basis.manifest.headSeq seq' burned') :
    Inv cfg (w.setTask t (task.goto phase)) := by
  have hleaves : ∀ a σ, (task.goto phase).phase ≠ .swapping a σ := by
    rcases hphase with rfl | ⟨n, rfl⟩ | ⟨n, rfl⟩ <;> simp [Task.goto]
  have hstep := localStep_setTask (w := w) (t := t) hleaves
  have hclaiming : ClaimingOk (w.setTask t (task.goto phase)) t task.job a seq' burned' :=
    { idle := hstep.idle_self hok.idle (by simp)
      basis := hok.basis.mono hstep.extends'
      writes := hok.writes
      swept := hswept
      range := hrange }
  refine hstep.inv h ?_ (by simp)
  rcases hphase with rfl | ⟨n, rfl⟩ | ⟨n, rfl⟩ <;> exact hclaiming

theorem Inv.claimingOk (h : Inv cfg w) {t : ℕ} {task : Task} {a : Attempt} {seq : ℕ}
    {burned : List (ℕ × ℕ)} (htask : w.tasks t = some task)
    (hphase : task.phase = .claiming a seq burned ∨ (∃ n, task.phase = .probing a seq burned n) ∨
      ∃ n, task.phase = .heading a seq burned n) : ClaimingOk w t task.job a seq burned := by
  have hok := h.tasks t task htask
  unfold TaskOk at hok
  rcases hphase with hphase | ⟨n, hphase⟩ | ⟨n, hphase⟩ <;> rwa [hphase] at hok

/-- The segment's key was free: the task now owns what it wrote. -/
theorem Inv.claimSlot (h : Inv cfg w) {t : ℕ} {task : Task} {a : Attempt} {seq : ℕ}
    {burned : List (ℕ × ℕ)} {uuid : String} {clock : ℕ → Timestamp} {es : List LogEntry}
    (htask : w.tasks t = some task) (hok : ClaimingOk w t task.job a seq burned)
    (hnonce : uuid ∉ w.nonces) (hes : task.job.entries a clock seq = .ok es)
    (habsent : w.store.objects (.log seq) = none) :
    let σ : Slot := ⟨t, w.store.next, seq, withNonce uuid es, uuid, burned⟩
    Inv cfg ({ w with
      store := w.store.write (.log seq) (.segment (withNonce uuid es))
      nonces := uuid :: w.nonces
      claims := ⟨task.job, a, σ⟩ :: w.claims }.setTask t (task.goto (.swapping a σ))) := by
  intro σ
  set w₁ : World := { w with store := w.store.write (.log seq) (.segment (withNonce uuid es)) }
    with hw₁
  have h₁ : Inv cfg w₁ := h.createObject habsent
  have hext : Extends w { w₁ with nonces := uuid :: w.nonces } :=
    ⟨fun _ ht => ht, fun _ hg => hg, fun _ ho => ho, fun _ hn => List.mem_cons_of_mem _ hn,
      Nat.le_succ _⟩
  have hne : es ≠ [] := by
    obtain ⟨clock', n, e, es', hes'⟩ := hok.writes
    have hlen := Job.entries_length_congr hes hes'
    exact List.length_pos_iff.mp (by simp [hlen])
  refine h₁.register (o := ⟨task.job, a, σ⟩) hok.idle rfl rfl rfl hnonce ?_ ?_ ?_ ?_
  · exact fun p hp => (h.claims p hp).version
  · exact fun seq' v hmem => DeleteOk.old (h.wire _ hmem)
  · exact
      { version := Nat.lt_succ_self _
        nonce := List.mem_cons_self
        wrote := ⟨clock, es, hes, hne, rfl⟩
        burned := hok.range
        swept := fun b hb => (hok.swept b hb).trans (Nat.lt_succ_self _)
        basis := hok.basis.mono hext
        owner := by
          change (w.tasks t).isSome
          rw [htask]
          rfl }
  · simp [hw₁, ObjectStore.write_objects, σ]

theorem Inv.claim (h : Inv cfg w) {t : ℕ} {task : Task} {a : Attempt} {seq : ℕ}
    {burned : List (ℕ × ℕ)} {uuid : String} {clock : ℕ → Timestamp} {reply : Reply}
    (htask : w.tasks t = some task) (hok : ClaimingOk w t task.job a seq burned)
    (hw' : w.claim t task a seq burned uuid clock reply = some w') : Inv cfg w' := by
  cases reply with
  | delivered =>
    simp only [World.claim] at hw'
    split_ifs at hw' with hnonce
    split at hw'
    · cases hw'
    · rename_i es hes
      split at hw'
      · rename_i store hput
        cases hw'
        obtain ⟨hacc, rfl⟩ := ObjectStore.put_eq_some hput
        exact h.claimSlot htask hok hnonce hes (by simpa [ObjectStore.accepts] using hacc)
      · cases hw'
        have hstep : LocalStep w ({ w with nonces := uuid :: w.nonces }.setTask t
            (task.goto (.probing a seq burned 0))) t _ [] :=
          { store := rfl, gens := rfl, claims := rfl
            nonces := fun _ hn => List.mem_cons_of_mem _ hn
            tasks := rfl, wire := (List.append_nil _).symm
            leaves := by simp [Task.goto], swaps := by simp }
        refine hstep.inv h ?_ (by simp)
        exact hok.mono hstep.extends' (hstep.idle_self hok.idle (by simp))
  | lost message =>
    simp only [World.claim] at hw'
    split_ifs at hw' with hnonce
    split at hw'
    · cases hw'
    · rename_i es hes
      cases hw'
      have hstep : LocalStep w (({ w with nonces := uuid :: w.nonces }.send
          [.create seq (withNonce uuid es)]).setTask t
          (task.finishWith (unknownError task.job (.store message)))) t _
          [.create seq (withNonce uuid es)] :=
        { store := rfl, gens := rfl, claims := rfl
          nonces := fun _ hn => List.mem_cons_of_mem _ hn
          tasks := rfl, wire := rfl, leaves := done_leaves, swaps := by simp }
      refine hstep.inv h trivial ?_
      intro r hr
      rw [List.mem_singleton.mp hr]
      trivial

theorem Inv.probe (h : Inv cfg w) {t : ℕ} {task : Task} {a : Attempt} {seq probes : ℕ}
    {burned : List (ℕ × ℕ)} (hok : ClaimingOk w t task.job a seq burned)
    (hw' : w.probe cfg t task a seq burned probes = some w') : Inv cfg w' := by
  simp only [World.probe, Option.bind_eq_bind, Option.bind_eq_some_iff] at hw'
  obtain ⟨m, -, hw'⟩ := hw'
  split_ifs at hw' <;> cases hw'
  · have hstep : LocalStep w (w.setTask t (task.retry cfg)) t (task.retry cfg) [] :=
      localStep_setTask (retry_leaves task)
    exact hstep.inv h (taskOk_retry (hstep.idle_self hok.idle (by simp))) (by simp)
  · exact h.gotoClaiming hok (Or.inr (Or.inr ⟨_, rfl⟩)) hok.swept hok.range

theorem Inv.head (h : Inv cfg w) {t : ℕ} {task : Task} {a : Attempt} {seq probes : ℕ}
    {burned : List (ℕ × ℕ)} (hok : ClaimingOk w t task.job a seq burned) :
    Inv cfg (w.head t task a seq burned probes) := by
  unfold World.head
  split
  · exact h.gotoClaiming hok (Or.inl rfl) hok.swept hok.range
  · rename_i v hv
    simp only
    split_ifs
    · exact h.gotoClaiming hok (Or.inr (Or.inl ⟨_, rfl⟩)) hok.swept hok.range
    · exact h.finishWith
    · refine h.gotoClaiming hok (Or.inl rfl) ?_ hok.range.snoc
      intro b hb
      rcases List.mem_append.mp hb with hb | hb
      · exact hok.swept b hb
      · obtain ⟨⟨v', body⟩, hobj, rfl⟩ := Option.map_eq_some_iff.mp hv
        rw [List.mem_singleton.mp hb]
        exact h.bounded _ _ _ hobj

/-- The swap is applied: the task's claim is committed. -/
theorem Inv.swapApplied (h : Inv cfg w) {t : ℕ} {task : Task} {a : Attempt} {σ : Slot}
    {m : Manifest} {now : Timestamp} (htask : w.tasks t = some task)
    (hphase : task.phase = .swapping a σ)
    (hedit : task.job.manifest a now (σ.ref cfg) = .ok m)
    (hacc : w.store.accepts .manifest a.basis.putMode) (v : ℕ) :
    Inv cfg ((w.commit m (some ⟨task.job, a, σ⟩)).setTask t (task.goto (.committed a σ m v))) := by
  have hok := h.tasks t task htask
  unfold TaskOk at hok
  rw [hphase] at hok
  obtain ⟨-, hclaim, howner⟩ := hok
  set o : Origin := ⟨task.job, a, σ⟩ with ho
  have howner' : o.slot.task = t := howner
  have hlive : Live w o.attempt := h.accepts_live hacc
  have hpending : Pending w o := Or.inl ⟨task, by rw [howner']; exact htask, rfl, hphase⟩
  -- The task leaves its swapping phase before the record grows.
  set w₀ := w.setTask t (task.goto .crashed) with hw₀
  have hstep₀ : LocalStep w w₀ t (task.goto .crashed) [] :=
    localStep_setTask (by simp [Task.goto])
  have h₀ : Inv cfg w₀ := hstep₀.inv h trivial (by simp)
  have h₁ : Inv cfg (w₀.commit m (some o)) := by
    refine h₀.commitSlot hclaim hedit hlive (h.intact o hpending hlive) ?_ ?_
    · exact fun seq v hmem => DeleteOk.pending (h.wire _ hmem) o hpending hlive
    · intro t' task' ht' hearly heq
      rw [← heq, howner', hstep₀.tasks, Function.update_self] at ht'
      cases ht'
      cases hearly
  have hstep₁ : LocalStep (w₀.commit m (some o))
      ((w₀.commit m (some o)).setTask t (task.goto (.committed a σ m v))) t _ [] :=
    localStep_setTask (by simp [Task.goto])
  have h₂ := hstep₁.inv h₁ (hstep₁.committed_iff.mpr ⟨_, List.mem_cons_self, rfl⟩) (by simp)
  have hworld : (w₀.commit m (some o)).setTask t (task.goto (.committed a σ m v)) =
      (w.commit m (some o)).setTask t (task.goto (.committed a σ m v)) := by
    simp [hw₀, World.setTask, World.commit, Function.update_idem]
  rwa [hworld] at h₂

/-- The task gives its claim up and sends a delete for it. -/
theorem Inv.dropOwn (h : Inv cfg w) {t : ℕ} {task task' : Task} {a : Attempt} {σ : Slot}
    (htask : w.tasks t = some task) (hphase : task.phase = .swapping a σ)
    (hleaves : ∀ a σ, task'.phase ≠ .swapping a σ)
    (hok' : ∀ w', Idle w' t → TaskOk cfg w' t task') :
    Inv cfg ((w.send [.delete σ.firstSeq σ.version]).setTask t task') := by
  have hok := h.tasks t task htask
  unfold TaskOk at hok
  rw [hphase] at hok
  obtain ⟨hidle, hclaim, howner⟩ := hok
  have hstep : LocalStep w ((w.send [.delete σ.firstSeq σ.version]).setTask t task') t task'
      [.delete σ.firstSeq σ.version] := localStep_send hleaves (by simp)
  have hidle' := hstep.idle_self hidle (by simp)
  refine hstep.inv h (hok' _ hidle') ?_
  intro r hr
  rw [List.mem_singleton.mp hr]
  exact h.deleteOwn hstep hidle' hclaim howner

theorem Inv.swap (h : Inv cfg w) {t : ℕ} {task : Task} {a : Attempt} {σ : Slot}
    {now : Timestamp} {reply : Reply} (htask : w.tasks t = some task)
    (hphase : task.phase = .swapping a σ)
    (hw' : w.swap cfg t task a σ now reply = some w') : Inv cfg w' := by
  simp only [World.swap, Option.bind_eq_bind, Option.bind_eq_some_iff] at hw'
  obtain ⟨m, hm, hw'⟩ := hw'
  have hedit : task.job.manifest a now (σ.ref cfg) = .ok m := Checks.toOption_eq_some.mp hm
  have hok := h.tasks t task htask
  unfold TaskOk at hok
  rw [hphase] at hok
  obtain ⟨-, hclaim, howner⟩ := hok
  cases reply with
  | delivered =>
    simp only at hw'
    split_ifs at hw' with hacc <;> cases hw'
    · exact h.swapApplied htask hphase hedit hacc _
    · exact h.dropOwn htask hphase (retry_leaves task) fun _ => taskOk_retry
  | lost message =>
    simp only at hw'
    have hpending : Pending w ⟨task.job, a, σ⟩ :=
      Or.inl ⟨task, by rw [howner]; exact htask, rfl, hphase⟩
    have hmem : ∀ task', (∀ a σ, task'.phase ≠ .swapping a σ) →
        LocalStep w ((w.send [.swap a.basis.putMode m (some ⟨task.job, a, σ⟩)]).setTask t task')
          t task' [.swap a.basis.putMode m (some ⟨task.job, a, σ⟩)] := by
      intro task' hleaves
      refine localStep_send hleaves fun mode m' o ho => ?_
      cases List.mem_singleton.mp ho
      exact ⟨hpending, howner⟩
    have hreq : ∀ w', w'.claims = w.claims →
        RequestOk cfg w' (.swap a.basis.putMode m (some ⟨task.job, a, σ⟩)) := by
      intro w' hclaims
      exact ⟨hclaims ▸ hclaim, rfl, now, hedit⟩
    split at hw'
    · cases hw'
      refine (hmem _ done_leaves).inv h trivial fun r hr => ?_
      rw [List.mem_singleton.mp hr]
      exact hreq _ rfl
    · cases hw'
      refine (hmem _ (by simp [Task.goto])).inv h hclaim fun r hr => ?_
      rw [List.mem_singleton.mp hr]
      exact hreq _ rfl

theorem Inv.current_eq (h : Inv cfg w) {m : Manifest} {v : ℕ} (hc : w.current = some (m, v)) :
    ∃ g ∈ w.gens, g.manifest = m ∧ g.version = v := by
  obtain ⟨g, gs, hgens, hobj⟩ := h.current
  simp only [World.current, hobj, Option.some.injEq, Prod.mk.injEq] at hc
  exact ⟨g, hgens ▸ List.mem_cons_self, hc⟩

theorem Inv.reread (h : Inv cfg w) {t : ℕ} {task : Task} {a : Attempt} {σ : Slot}
    {message : String} (htask : w.tasks t = some task)
    (hphase : task.phase = .rereading a σ message)
    (hw' : w.reread cfg t task a σ message = some w') : Inv cfg w' := by
  have hclaim := h.tasks t task htask
  unfold TaskOk at hclaim
  rw [hphase] at hclaim
  simp only [World.reread, Option.bind_eq_bind, Option.bind_eq_some_iff] at hw'
  obtain ⟨⟨m, v⟩, hcur, hw'⟩ := hw'
  simp only at hw'
  split_ifs at hw' with hlisted <;> cases hw'
  · obtain ⟨g, hg, hm, -⟩ := h.current_eq hcur
    have hstep : LocalStep w (w.setTask t (task.goto (.confirming a σ m v message))) t _ [] :=
      localStep_setTask (by simp [Task.goto])
    exact hstep.inv h ⟨hclaim, hlisted, g, hg, hm⟩ (by simp)
  · exact h.finishWith

/-- A listed slot whose bytes are found in the store is the committed one. -/
theorem Inv.listed_committed (h : Inv cfg w) {o : Origin} {m : Manifest} (hclaim : o ∈ w.claims)
    (hlisted : o.slot.listedIn cfg m) (hgen : ∃ g ∈ w.gens, g.manifest = m)
    (hbytes : (w.store.objects (.log o.slot.firstSeq)).map Prod.snd =
      some (.segment o.slot.bytes)) : Committed w o := by
  obtain ⟨g, hg, rfl⟩ := hgen
  obtain ⟨s, hs, hsame⟩ := List.any_eq_true.mp hlisted
  simp only [Bool.and_eq_true, decide_eq_true_eq] at hsame
  obtain ⟨pre, suf, hsplit⟩ := List.append_of_mem hg
  have hsuffix : (g :: suf) <:+ w.gens := ⟨pre, hsplit.symm⟩
  have hchain := h.chain.suffix hsuffix
  obtain ⟨g', hg', p, hp, rfl⟩ := committedSegments_mem (hchain.logSpec.listed_mem hs).1
  have hpc : Committed w p := ⟨g', hsuffix.subset hg', hp⟩
  have hseq : p.slot.firstSeq = o.slot.firstSeq := hsame.1.2
  have hstored := h.stored p hpc
  rw [hseq] at hstored
  rw [hstored] at hbytes
  simp only [Option.map_some, Option.some.injEq, Body.segment.injEq] at hbytes
  obtain ⟨_, es, -, hne, hpb⟩ := (h.claims p (h.claimed p hpc)).wrote
  obtain ⟨_, fs, -, -, hob⟩ := (h.claims o hclaim).wrote
  rw [hpb, hob] at hbytes
  have heq := h.claim_eq (h.claimed p hpc) hclaim (Or.inr (withNonce_injective hne hbytes))
  exact heq ▸ hpc

theorem Inv.confirm (h : Inv cfg w) {t : ℕ} {task : Task} {a : Attempt} {σ : Slot} {m : Manifest}
    {v : ℕ} {message : String} (htask : w.tasks t = some task)
    (hphase : task.phase = .confirming a σ m v message) :
    Inv cfg (w.confirm t task a σ m v message) := by
  have hok := h.tasks t task htask
  unfold TaskOk at hok
  rw [hphase] at hok
  obtain ⟨hclaim, hlisted, hgen⟩ := hok
  unfold World.confirm
  split_ifs with hbytes
  · have hstep : LocalStep w (w.setTask t (task.goto (.committed a σ m v))) t _ [] :=
      localStep_setTask (by simp [Task.goto])
    exact hstep.inv h (hstep.committed_iff.mpr (h.listed_committed hclaim hlisted hgen hbytes))
      (by simp)
  · exact h.finishWith

theorem Inv.finish (h : Inv cfg w) {t : ℕ} {task : Task} {a : Attempt} {σ : Slot} {m : Manifest}
    {v : ℕ} {answers : List Answer} (htask : w.tasks t = some task)
    (hphase : task.phase = .committed a σ m v) :
    Inv cfg ((w.send (σ.burned.map fun b => .delete b.1 b.2)).setTask t
      (task.finishWith answers)) := by
  have hok := h.tasks t task htask
  unfold TaskOk at hok
  rw [hphase] at hok
  have hstep : LocalStep w ((w.send (σ.burned.map fun b => .delete b.1 b.2)).setTask t
      (task.finishWith answers)) t _ (σ.burned.map fun b => .delete b.1 b.2) :=
    localStep_send done_leaves (by simp)
  refine hstep.inv h trivial fun r hr => ?_
  obtain ⟨b, hb, rfl⟩ := List.mem_map.mp hr
  exact h.deleteBurned hstep hok hb

/-- A metadata write whose reply is lost stays on the wire. -/
theorem Inv.sendRewrite (h : Inv cfg w) {mode : PutMode} {m : Manifest}
    (hok : RewriteOk w mode m) : Inv cfg (w.send [.swap mode m none]) := by
  have hext : Extends w (w.send [.swap mode m none]) :=
    ⟨fun _ ht => ht, fun _ hg => hg, fun _ ho => ho, fun _ hn => hn, le_rfl⟩
  have hwire : ∀ mode' m' o, Request.swap mode' m' (some o) ∈ (w.send [.swap mode m none]).wire →
      Request.swap mode' m' (some o) ∈ w.wire := by
    intro mode' m' o hmem
    simpa [World.send] using hmem
  have hpending : ∀ o, Pending (w.send [.swap mode m none]) o → Pending w o := by
    rintro o (htask | ⟨mode', m', hmem⟩)
    · exact Or.inl htask
    · exact Or.inr ⟨mode', m', hwire mode' m' o hmem⟩
  refine ⟨h.bounded, h.chain, h.current, h.versions, h.distinct, ?_, h.claimed, h.stored, ?_, ?_, ?_⟩
  · exact fun o ho => (h.claims o ho).mono hext
  · exact fun o ho hl => h.intact o (hpending o ho) hl
  · refine fun t task ht => (h.tasks t task ht).mono hext fun _ hi => ⟨hi.1, fun mode' m' o hm => ?_⟩
    exact hi.2 mode' m' o (hwire mode' m' o hm)
  · intro r hr
    rcases List.mem_append.mp hr with hr | hr
    · match r, h.wire r hr with
      | .create .., _ => trivial
      | .delete .., hd => exact ⟨hd.old, hd.committed, fun o ho => hd.pending o (hpending o ho)⟩
      | .swap _ _ none, hs => exact hs.mono hext
      | .swap _ _ (some _), hs => exact hs.mono hext
    · rw [List.mem_singleton.mp hr]
      exact hok.mono hext

theorem Inv.landRewrite (h : Inv cfg w) {mode : PutMode} {m : Manifest}
    (hok : RewriteOk w mode m) : Inv cfg (w.land (.swap mode m none)) := by
  simp only [World.land]
  split_ifs with hacc
  · exact h.commitRewrite hok hacc
  · exact h

/-- A late request does no harm whenever it lands. -/
theorem Inv.land (h : Inv cfg w) {r : Request} (hr : r ∈ w.wire) : Inv cfg (w.land r) := by
  match r, hr with
  | .create seq bytes, _ =>
    simp only [World.land]
    split
    · rename_i store hput
      obtain ⟨hacc, rfl⟩ := ObjectStore.put_eq_some hput
      exact h.createObject (by simpa [ObjectStore.accepts] using hacc)
    · exact h
  | .delete seq version, hr => exact h.deleteObject (h.wire _ hr)
  | .swap mode m none, hr => exact h.landRewrite (h.wire _ hr)
  | .swap mode m (some o), hr =>
    obtain ⟨hclaim, hmode, now, hedit⟩ := h.wire _ hr
    have hpending : Pending w o := Or.inr ⟨mode, m, hr⟩
    simp only [World.land]
    split_ifs with hacc
    · have hlive : Live w o.attempt := h.accepts_live (hmode ▸ hacc)
      refine h.commitSlot hclaim hedit hlive (h.intact o hpending hlive) ?_ ?_
      · exact fun seq v hmem => DeleteOk.pending (h.wire _ hmem) o hpending hlive
      · intro t task ht hearly
        exact (taskOk_idle hearly (h.tasks t task ht)).2 mode m o hr
    · exact h

/-- Every step of the system keeps the invariant. -/
theorem Inv.step (h : Inv cfg w) (action : Action) (hw' : step cfg w action = some w') :
    Inv cfg w' := by
  cases action with
  | start t job =>
    obtain ⟨hnew, rfl⟩ := step_start hw'
    exact h.start hnew
  | capture t a =>
    obtain ⟨task, htask, hphase, hhold, rfl⟩ := step_capture hw'
    exact h.capture htask hphase hhold
  | abort t message =>
    obtain ⟨task, htask, -, rfl⟩ := step_abort hw'
    exact h.finishWith
  | claim t uuid clock reply =>
    obtain ⟨task, a, seq, burned, htask, hphase, hw'⟩ := step_claim hw'
    exact h.claim htask (h.claimingOk htask (Or.inl hphase)) hw'
  | probe t failure =>
    obtain ⟨task, a, seq, burned, probes, htask, hphase, hw' | ⟨e, rfl⟩⟩ := step_probe hw'
    · exact h.probe (h.claimingOk htask (Or.inr (Or.inl ⟨_, hphase⟩))) hw'
    · exact h.finishWith
  | head t failure =>
    obtain ⟨task, a, seq, burned, probes, htask, hphase, rfl | ⟨e, rfl⟩⟩ := step_head hw'
    · exact h.head (h.claimingOk htask (Or.inr (Or.inr ⟨_, hphase⟩)))
    · exact h.finishWith
  | refuse t message dropSlot =>
    obtain ⟨task, htask, -, rfl | ⟨a, σ, hphase, rfl⟩⟩ := step_refuse hw'
    · exact h.finishWith
    · exact h.dropOwn htask hphase done_leaves fun _ _ => trivial
  | swap t now reply =>
    obtain ⟨task, a, σ, htask, hphase, hw'⟩ := step_swap hw'
    exact h.swap htask hphase hw'
  | reread t failure =>
    obtain ⟨task, a, σ, message, htask, hphase, hw' | ⟨e, rfl⟩⟩ := step_reread hw'
    · exact h.reread htask hphase hw'
    · exact h.finishWith
  | confirm t failure =>
    obtain ⟨task, a, σ, m, v, message, htask, hphase, rfl | ⟨e, rfl⟩⟩ := step_confirm hw'
    · exact h.confirm htask hphase
    · exact h.finishWith
  | finish t =>
    obtain ⟨task, a, σ, m, v, htask, hphase, rfl⟩ := step_finish hw'
    exact h.finish htask hphase
  | crash t =>
    obtain ⟨task, htask, -, rfl⟩ := step_crash hw'
    exact (localStep_setTask (by simp [Task.goto])).inv h trivial (by simp)
  | rewrite job basis version policy writer now reply =>
    obtain ⟨m, hmay, hedit, rfl | rfl⟩ := step_rewrite hw'
    · exact h.landRewrite (mayRewrite_ok hmay hedit)
    · exact h.sendRewrite (mayRewrite_ok hmay hedit)
  | land k =>
    obtain ⟨r, hr, rfl⟩ := step_land hw'
    rw [land_setWire]
    exact (h.land hr).subWire fun r' hr' => by
      rw [land_wire]
      exact List.mem_of_mem_eraseIdx hr'
  | lose k =>
    obtain rfl := step_lose hw'
    exact h.subWire fun r hr => List.mem_of_mem_eraseIdx hr

end Steps

section Runs

variable [Text.CharTables] {cfg : Config}

/-- A new repository satisfies the invariant. -/
theorem inv_created (access : Option RepoAccess) (now : Timestamp) (writer : String) :
    Inv cfg (World.created (createdManifest access now writer)) where
  bounded := by
    intro k v x hobj
    simp only [World.created, Function.update_apply] at hobj ⊢
    split_ifs at hobj
    cases hobj
    exact Nat.one_pos
  chain := Chain.created access now writer 0
  current := ⟨_, [], rfl, by simp [World.created]⟩
  versions := by simp [World.created]
  distinct := List.Pairwise.nil
  claims := by simp [World.created]
  claimed := by simp [World.created, Committed]
  stored := by simp [World.created, Committed]
  intact := by simp [World.created, Pending]
  tasks := by simp [World.created]
  wire := by simp [World.created]

/-- The invariant holds along every run from a new repository. -/
theorem inv_run {access : Option RepoAccess} {now : Timestamp} {writer : String} {w : World}
    {actions : List Action}
    (hrun : Runs.run (step cfg) (World.created (createdManifest access now writer)) actions =
      some w) : Inv cfg w :=
  Runs.invariant (fun _ action _ h _ hstep => h.step action hstep) hrun
    (Runs.allSteps_true _ _) (inv_created access now writer)

/-- Every segment the current manifest names was written by the publisher whose manifest
write committed it, and its bytes are still in the store. -/
theorem committed_segments_kept {access : Option RepoAccess} {now : Timestamp} {writer : String}
    {w : World} {actions : List Action}
    (hrun : Runs.run (step cfg) (World.created (createdManifest access now writer)) actions =
      some w) :
    ∃ m v, w.current = some (m, v) ∧ ∀ s ∈ m.logSegments,
      ∃ g ∈ w.gens, ∃ o, g.origin = some o ∧ o.slot.ref cfg = s ∧ o.Wrote ∧
        w.store.objects s.key = some (o.slot.version, .segment o.slot.bytes) := by
  have h := inv_run hrun
  obtain ⟨g, gs, hgens, hobj⟩ := h.current
  refine ⟨g.manifest, g.version, by simp [World.current, hobj], fun s hs => ?_⟩
  have hchain := h.chain
  rw [hgens] at hchain
  obtain ⟨g', hg', o, ho, hseg⟩ := committedSegments_mem (hchain.logSpec.listed_mem hs).1
  refine ⟨g', hgens ▸ hg', o, ho, hseg, (hchain.ref_mem hg' ho).1, ?_⟩
  rw [← hseg]
  exact h.stored o ⟨g', hgens ▸ hg', ho⟩

/-- The log part of every manifest ever committed. -/
theorem manifest_log_invariant {access : Option RepoAccess} {now : Timestamp} {writer : String}
    {w : World} {actions : List Action}
    (hrun : Runs.run (step cfg) (World.created (createdManifest access now writer)) actions =
      some w) :
    (∀ g gens, (g :: gens) <:+ w.gens →
      let m := g.manifest
      m.logSegments.Pairwise (fun s t => s.lastSeq < t.firstSeq) ∧
      (∀ s ∈ m.logSegments,
        s.firstSeq ≤ s.lastSeq ∧ m.minSeq ≤ s.firstSeq ∧ s.lastSeq ≤ m.headSeq) ∧
      (∀ e ∈ committedEntries (g :: gens), m.checkpointSeq < e.seq →
        ∃! s, s ∈ m.logSegments ∧ s.firstSeq ≤ e.seq ∧ e.seq ≤ s.lastSeq) ∧
      (∀ n, m.checkpointSeq < n → n ≤ m.headSeq →
        (∃ s ∈ m.logSegments, s.firstSeq ≤ n ∧ n ≤ s.lastSeq) ∨
        ∃ g' ∈ g :: gens, ∃ o ∈ g'.origin, n ∈ o.slot.burned.map Prod.fst) ∧
      m.checkpointSeq ≤ m.headSeq ∧
      (m.checkpoint.isSome → m.minSeq = m.checkpointSeq + 1)) ∧
    ∀ g' g gens, (g' :: g :: gens) <:+ w.gens →
      g'.manifest.revision = g.manifest.revision + 1 ∧
      g.manifest.headSeq ≤ g'.manifest.headSeq ∧
      g.manifest.checkpointSeq ≤ g'.manifest.checkpointSeq := by
  have hchain := (inv_run hrun).chain
  refine ⟨fun g gens hsuf => ?_, fun g' g gens hsuf => (hchain.suffix hsuf).monotone⟩
  have h := (hchain.suffix hsuf).logSpec
  refine ⟨?_, fun s hs => ?_, fun e he hlt => ?_, fun n hlt hle => ?_, h.checkpoint_le_head, ?_⟩
  · rw [h.segments]
    exact h.ordered.sublist List.filter_sublist
  · have hproper := h.proper s (h.listed_mem hs).1
    have habove := h.listed_above hs
    refine ⟨hproper.2.1, ?_, hproper.2.2⟩
    rw [h.minSeq]
    split_ifs <;> omega
  · obtain ⟨s, hs, hrange⟩ := h.entries e he
    refine ⟨s, ⟨h.mem_listed hs hlt hrange.2, hrange⟩, fun t ht => ?_⟩
    exact h.listed_unique ht.1 (h.mem_listed hs hlt hrange.2) ht.2 hrange
  · rcases h.covered n (by omega) hle with ⟨s, hs, hrange⟩ | hburned
    · exact Or.inl ⟨s, h.mem_listed hs hlt hrange.2, hrange⟩
    · exact Or.inr hburned
  · intro hsome
    rw [h.minSeq, if_pos hsome]

end Runs

section Race

attribute [local instance] Text.asciiTables

/-- An attempt on a repository just created. -/
def firstAttempt : Attempt :=
  ⟨⟨createdManifest none ⟨1, 0⟩ "w", some 0, .new .fresh, ⟨0, .empty, .empty, []⟩, none⟩,
    ⟨"", .empty⟩, "w", ⟨2, 0⟩⟩

/-- Two publishers race for the first slot: one burns it, the other loses its swap. -/
def race : List Action :=
  let main : RefUpdate := ⟨"refs/heads/main", "", "aaaaaaaaaaaaaaaaaaaaaaaaaaaaaaaaaaaaaaaa", ""⟩
  let push : Job := .batch [{ txn := ⟨[main], [], true⟩ }]
  [.start 1 push, .start 2 push, .capture 1 firstAttempt, .capture 2 firstAttempt,
    .claim 1 "a" (fun _ => ⟨2, 0⟩) .delivered, .claim 2 "b" (fun _ => ⟨2, 0⟩) .delivered,
    .probe 2 none, .head 2 none, .probe 2 none, .head 2 none, .probe 2 none, .head 2 none,
    .claim 2 "c" (fun _ => ⟨2, 0⟩) .delivered, .swap 2 ⟨3, 0⟩ .delivered, .finish 2,
    .swap 1 ⟨3, 0⟩ .delivered, .land 0, .land 0]

/-- The race ends with one committed segment, at the second sequence number. -/
theorem race_runs :
    ∃ w, Runs.run (step ⟨3, List.length⟩) (World.created (createdManifest none ⟨1, 0⟩ "w")) race =
      some w ∧ w.wire = [] ∧
      w.gens.map (fun g => g.manifest.logSegments.map LogSegmentRef.firstSeq) = [[2], []] := by
  have hsome : ((Runs.run (step ⟨3, List.length⟩)
      (World.created (createdManifest none ⟨1, 0⟩ "w")) race).map fun w =>
        (w.wire, w.gens.map fun g => g.manifest.logSegments.map LogSegmentRef.firstSeq)) =
      some ([], [[2], []]) := by decide
  obtain ⟨w, hrun, heq⟩ := Option.map_eq_some_iff.mp hsome
  simp only [Prod.mk.injEq] at heq
  exact ⟨w, hrun, heq⟩

theorem committed_segments_kept_race :
    ∃ (w : World) (m : Manifest) (v : ℕ), w.current = some (m, v) ∧ w.gens.length = 2 ∧
      ∀ s ∈ m.logSegments,
      ∃ g ∈ w.gens, ∃ o, g.origin = some o ∧ o.slot.ref ⟨3, List.length⟩ = s ∧ o.Wrote ∧
        w.store.objects s.key = some (o.slot.version, .segment o.slot.bytes) := by
  obtain ⟨w, hrun, -, hgens⟩ := race_runs
  obtain ⟨m, v, hcur, hkept⟩ := committed_segments_kept hrun
  exact ⟨w, m, v, hcur, by simpa using congrArg List.length hgens, hkept⟩

theorem manifest_log_invariant_race :
    ∃ w : World, w.gens.length = 2 ∧
    ∀ g' g gens, (g' :: g :: gens) <:+ w.gens →
      g'.manifest.logSegments.Pairwise (fun s t => s.lastSeq < t.firstSeq) ∧
      g'.manifest.revision = g.manifest.revision + 1 := by
  obtain ⟨w, hrun, -, hgens⟩ := race_runs
  obtain ⟨hspec, hmono⟩ := manifest_log_invariant hrun
  refine ⟨w, by simpa using congrArg List.length hgens, fun g' g gens hsuf => ?_⟩
  exact ⟨(hspec g' (g :: gens) hsuf).1, (hmono g' g gens hsuf).1⟩

end Race

end Walgit
