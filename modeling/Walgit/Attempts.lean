import Walgit.PublisherRuns

/-!
# Where attempts come from

An attempt keeps the basis it captured until it is answered: what a publisher writes and
commits goes back to a capture. A task that is committed has seen a manifest that lists
its segment, and a checkpoint in a manifest was put there by a rewrite.
-/
namespace Walgit

open ObjectStore (PutMode)

/-- The attempt a phase is about. -/
def Phase.attempt : Phase → Option Attempt
  | .claiming a _ _ | .probing a _ _ _ | .heading a _ _ _ | .swapping a _ | .rereading a _ _
  | .confirming a _ _ _ _ | .committed a _ _ _ => some a
  | .ready | .done _ | .crashed => none

/-- The manifest that a metadata write of the action computes. -/
def Action.Rewrites (w : World) (action : Action) (m : Manifest) : Prop :=
  ∃ job basis version policy writer now reply,
    action = .rewrite job basis version policy writer now reply ∧
      w.mayRewrite job basis version ∧ job.manifest basis policy writer now = some m

section Moves

variable {cfg : Config} {w w' : World} {t : ℕ} {task : Task} {a : Attempt}

/-- The task moved on, with the attempt it had or without one; what it claimed or committed is
of that attempt, and it sent no metadata write. -/
structure Continues (w w' : World) (t : ℕ) (task : Task) : Prop where
  tasks : ∃ task', w'.tasks = Function.update w.tasks t (some task') ∧ task'.job = task.job ∧
    ∀ a, task'.phase.attempt = some a → task.phase.attempt = some a
  claims : ∀ o ∈ w'.claims, o ∈ w.claims ∨
    o.job = task.job ∧ task.phase.attempt = some o.attempt ∧ o.slot.task = t
  gens : w'.gens = w.gens ∨ ∃ g, w'.gens = g :: w.gens ∧ g.origin.isSome
  wire : ∀ mode m, Request.swap mode m none ∈ w'.wire → Request.swap mode m none ∈ w.wire

/-- Most moves claim and commit nothing. -/
theorem Continues.of_tasks {task' : Task}
    (htasks : w'.tasks = Function.update w.tasks t (some task')) (hclaims : w'.claims = w.claims)
    (hgens : w'.gens = w.gens) (hwire : w'.wire = w.wire) (hjob : task'.job = task.job)
    (hphase : ∀ a, task'.phase.attempt = some a → task.phase.attempt = some a) :
    Continues w w' t task :=
  ⟨⟨task', htasks, hjob, hphase⟩, fun _ ho => Or.inl (hclaims ▸ ho), Or.inl hgens,
    fun _ _ hmem => hwire ▸ hmem⟩

/-- A move that sends requests, none of them a metadata write. -/
theorem Continues.of_send {task' : Task} {rs : List Request}
    (hw : w' = (w.send rs).setTask t task')
    (hrs : ∀ mode m, Request.swap mode m none ∉ rs) (hjob : task'.job = task.job)
    (hphase : ∀ a, task'.phase.attempt = some a → task.phase.attempt = some a) :
    Continues w w' t task := by
  subst hw
  refine ⟨⟨task', rfl, hjob, hphase⟩, fun _ ho => Or.inl ho, Or.inl rfl, fun mode m hmem => ?_⟩
  exact (List.mem_append.mp hmem).resolve_right (hrs mode m)

theorem Continues.finishWith (w : World) (t : ℕ) (task : Task) (answers : List Answer) :
    Continues w (w.setTask t (task.finishWith answers)) t task :=
  .of_tasks rfl rfl rfl rfl rfl (by simp [Task.finishWith, Phase.attempt])

theorem Continues.goto {phase : Phase} (w : World) (t : ℕ)
    (h : ∀ a, phase.attempt = some a → task.phase.attempt = some a) :
    Continues w (w.setTask t (task.goto phase)) t task := .of_tasks rfl rfl rfl rfl rfl h

theorem retry_attempt (cfg : Config) (task : Task) : (task.retry cfg).phase.attempt = none := by
  simp only [Task.retry]
  split_ifs <;> rfl

theorem probe_continues {seq probes : ℕ} {burned : List (ℕ × ℕ)}
    (hphase : task.phase.attempt = some a) (h : w.probe cfg t task a seq burned probes = some w') :
    Continues w w' t task := by
  simp only [World.probe, Option.bind_eq_bind, Option.bind_eq_some_iff] at h
  obtain ⟨m, -, h⟩ := h
  split_ifs at h <;> cases h
  · exact .of_tasks rfl rfl rfl rfl (Task.retry_job cfg task) (by simp [retry_attempt])
  · exact .goto w t fun b hb => hphase.trans hb

theorem head_continues (w : World) (t : ℕ) (seq probes : ℕ) (burned : List (ℕ × ℕ))
    (hphase : task.phase.attempt = some a) :
    Continues w (w.head t task a seq burned probes) t task := by
  unfold World.head
  split
  · exact .goto w t fun b hb => hphase.trans hb
  · simp only
    split_ifs
    · exact .goto w t fun b hb => hphase.trans hb
    · exact .finishWith w t task _
    · exact .goto w t fun b hb => hphase.trans hb

theorem reread_continues {σ : Slot} {message : String} (hphase : task.phase.attempt = some a)
    (h : w.reread cfg t task a σ message = some w') : Continues w w' t task := by
  simp only [World.reread, Option.bind_eq_bind, Option.bind_eq_some_iff] at h
  obtain ⟨m, -, h⟩ := h
  split_ifs at h <;> cases h
  · exact .goto w t fun b hb => hphase.trans hb
  · exact .finishWith w t task _

theorem confirm_continues (w : World) (t : ℕ) {σ : Slot} (m : Manifest) (v : ℕ) (message : String)
    (hphase : task.phase.attempt = some a) :
    Continues w (w.confirm t task a σ m v message) t task := by
  unfold World.confirm
  split_ifs
  · exact .goto w t fun b hb => hphase.trans hb
  · exact .finishWith w t task _

theorem land_claims (w : World) (r : Request) : (w.land r).claims = w.claims := by
  cases r with
  | create seq bytes =>
    simp only [World.land]
    split <;> rfl
  | delete seq version => rfl
  | swap mode m origin =>
    simp only [World.land]
    split_ifs <;> rfl

section Chars

variable [Text.CharTables]

theorem claim_continues {seq : ℕ} {burned : List (ℕ × ℕ)} {uuid : String} {clock : ℕ → Timestamp}
    {reply : Reply} (hphase : task.phase.attempt = some a)
    (h : w.claim t task a seq burned uuid clock reply = some w') : Continues w w' t task := by
  cases reply with
  | delivered =>
    simp only [World.claim] at h
    split_ifs at h
    split at h
    · cases h
    · split at h <;> cases h
      · refine ⟨⟨_, rfl, rfl, fun b hb => hphase.trans hb⟩, fun o ho => ?_, Or.inl rfl,
          fun _ _ hmem => hmem⟩
        rcases List.mem_cons.mp ho with rfl | ho
        · exact Or.inr ⟨rfl, hphase, rfl⟩
        · exact Or.inl ho
      · exact .of_tasks rfl rfl rfl rfl rfl fun b hb => hphase.trans hb
  | lost message =>
    simp only [World.claim] at h
    split_ifs at h
    split at h <;> cases h
    refine ⟨⟨_, rfl, rfl, by simp [Task.finishWith, Phase.attempt]⟩, fun _ ho => Or.inl ho,
      Or.inl rfl, fun mode m hmem => ?_⟩
    simpa [World.send, World.setTask] using hmem

theorem swap_continues {σ : Slot} {now : Timestamp} {reply : Reply}
    (hphase : task.phase.attempt = some a) (h : w.swap cfg t task a σ now reply = some w') :
    Continues w w' t task := by
  simp only [World.swap, Option.bind_eq_bind, Option.bind_eq_some_iff] at h
  obtain ⟨m, -, h⟩ := h
  cases reply with
  | delivered =>
    simp only at h
    split_ifs at h <;> cases h
    · exact ⟨⟨_, rfl, rfl, fun b hb => hphase.trans hb⟩, fun _ ho => Or.inl ho,
        Or.inr ⟨_, rfl, rfl⟩, fun _ _ hmem => hmem⟩
    · exact .of_send rfl (by simp) (Task.retry_job cfg task) (by simp [retry_attempt])
  | lost message =>
    simp only at h
    split at h <;> cases h
    · exact .of_send rfl (by simp) rfl (by simp [Task.finishWith, Phase.attempt])
    · exact .of_send rfl (by simp) rfl fun b hb => hphase.trans hb

theorem captured_attempt (task : Task) {a b : Attempt}
    (h : (captured task a).phase.attempt = some b) : b = a := by
  unfold captured at h
  split at h
  · cases h
  · split at h <;> cases h
  · exact (Option.some.inj h).symm

/-- A step moves a task on, starts one, captures a basis, or is no publisher's: then it makes
or lands a metadata write, lands what a publisher sent, or loses it. -/
theorem step_continues {action : Action} (h : step cfg w action = some w') :
    (∃ t task, w.tasks t = some task ∧ Continues w w' t task) ∨
    (∃ t job, action = .start t job ∧ w' = w.setTask t ⟨job, 0, .ready⟩) ∨
    (∃ t task a, action = .capture t a ∧ w.tasks t = some task ∧ w.canHold a.basis ∧
      w' = w.setTask t (captured task a)) ∨
    w'.tasks = w.tasks ∧ w'.claims = w.claims ∧
      (∀ mode m, Request.swap mode m none ∈ w'.wire → Request.swap mode m none ∈ w.wire ∨
        action.Rewrites w m) ∧
      (w'.gens = w.gens ∨ ∃ g, w'.gens = g :: w.gens ∧ (g.origin.isSome ∨
        (∃ mode, Request.swap mode g.manifest none ∈ w.wire) ∨ action.Rewrites w g.manifest)) := by
  have moved : ∀ {t task}, w.tasks t = some task → Continues w w' t task →
      ∃ t task, w.tasks t = some task ∧ Continues w w' t task :=
    fun htask hc => ⟨_, _, htask, hc⟩
  cases action with
  | start t job =>
    obtain ⟨-, hw⟩ := step_start h
    exact Or.inr (Or.inl ⟨t, job, rfl, hw⟩)
  | capture t a =>
    obtain ⟨task, htask, -, hhold, hw⟩ := step_capture h
    exact Or.inr (Or.inr (Or.inl ⟨t, task, a, rfl, htask, hhold, hw⟩))
  | abort t message =>
    obtain ⟨task, htask, hphase, rfl⟩ := step_abort h
    exact Or.inl (moved htask (.finishWith w t task _))
  | claim t uuid clock reply =>
    obtain ⟨task, a, seq, burned, htask, hphase, h⟩ := step_claim h
    exact Or.inl (moved htask (claim_continues (by rw [hphase]; rfl) h))
  | probe t failure =>
    obtain ⟨task, a, seq, burned, probes, htask, hphase, h | ⟨e, rfl⟩⟩ := step_probe h
    · exact Or.inl (moved htask (probe_continues (by rw [hphase]; rfl) h))
    · exact Or.inl (moved htask (.finishWith w t task _))
  | head t failure =>
    obtain ⟨task, a, seq, burned, probes, htask, hphase, rfl | ⟨e, rfl⟩⟩ := step_head h
    · exact Or.inl (moved htask (head_continues w t seq probes burned (by rw [hphase]; rfl)))
    · exact Or.inl (moved htask (.finishWith w t task _))
  | refuse t message dropSlot =>
    obtain ⟨task, htask, -, rfl | ⟨a, σ, -, rfl⟩⟩ := step_refuse h
    · exact Or.inl (moved htask (.finishWith w t task _))
    · exact Or.inl (moved htask (.of_send rfl (by simp) rfl
        (by simp [Task.finishWith, Phase.attempt])))
  | swap t now reply =>
    obtain ⟨task, a, σ, htask, hphase, h⟩ := step_swap h
    exact Or.inl (moved htask (swap_continues (by rw [hphase]; rfl) h))
  | reread t failure =>
    obtain ⟨task, a, σ, message, htask, hphase, h | ⟨e, rfl⟩⟩ := step_reread h
    · exact Or.inl (moved htask (reread_continues (by rw [hphase]; rfl) h))
    · exact Or.inl (moved htask (.finishWith w t task _))
  | confirm t failure =>
    obtain ⟨task, a, σ, m, v, message, htask, hphase, rfl | ⟨e, rfl⟩⟩ := step_confirm h
    · exact Or.inl (moved htask (confirm_continues w t m v message (by rw [hphase]; rfl)))
    · exact Or.inl (moved htask (.finishWith w t task _))
  | finish t =>
    obtain ⟨task, a, σ, m, v, htask, -, rfl⟩ := step_finish h
    exact Or.inl (moved htask (.of_send rfl (by simp) rfl
      (by simp [Task.finishWith, Phase.attempt])))
  | crash t =>
    obtain ⟨task, htask, -, rfl⟩ := step_crash h
    exact Or.inl (moved htask (.goto w t (by simp [Phase.attempt])))
  | rewrite job basis version policy writer now reply =>
    obtain ⟨m, hmay, hedit, hw⟩ := step_rewrite h
    have hwrites : Action.Rewrites w (.rewrite job basis version policy writer now reply) m :=
      ⟨job, basis, version, policy, writer, now, reply, rfl, hmay, hedit⟩
    refine Or.inr (Or.inr (Or.inr ?_))
    rcases hw with rfl | rfl
    · refine ⟨land_tasks w _, land_claims w _, fun mode m' hmem => Or.inl ?_, ?_⟩
      · rwa [land_wire] at hmem
      · rcases land_gens w (.swap (.update version) m none) with hl | ⟨_, _, _, hr, hl⟩
        · exact Or.inl hl
        · cases hr
          exact Or.inr ⟨_, hl, Or.inr (Or.inr hwrites)⟩
    · refine ⟨rfl, rfl, fun mode m' hmem => ?_, Or.inl rfl⟩
      rcases List.mem_append.mp hmem with hmem | hmem
      · exact Or.inl hmem
      · cases List.mem_singleton.mp hmem
        exact Or.inr hwrites
  | land k =>
    obtain ⟨r, hr, rfl⟩ := step_land h
    refine Or.inr (Or.inr (Or.inr ⟨land_tasks _ r, land_claims _ r, fun mode m hmem => ?_, ?_⟩))
    · rw [land_wire] at hmem
      exact Or.inl (List.mem_of_mem_eraseIdx hmem)
    · rcases land_gens { w with wire := w.wire.eraseIdx k } r with hl | ⟨mode, m, origin, rfl, hl⟩
      · exact Or.inl hl
      · refine Or.inr ⟨_, hl, ?_⟩
        cases origin with
        | none => exact Or.inr (Or.inl ⟨mode, hr⟩)
        | some o => exact Or.inl rfl
  | lose k =>
    obtain rfl := step_lose h
    exact Or.inr (Or.inr (Or.inr ⟨rfl, rfl,
      fun mode m hmem => Or.inl (List.mem_of_mem_eraseIdx hmem), Or.inl rfl⟩))

/-- An attempt goes back to the capture of its basis. -/
theorem step_attempts {action : Action} (h : step cfg w action = some w') {task' : Task}
    (htask' : w'.tasks t = some task') (ha : task'.phase.attempt = some a) :
    (∃ task, w.tasks t = some task ∧ task.job = task'.job ∧ task.phase.attempt = some a) ∨
      action = .capture t a ∧ w.canHold a.basis := by
  have kept : ∀ {t₀ : ℕ} {task₀ : Task}, w'.tasks = Function.update w.tasks t₀ (some task₀) →
      t ≠ t₀ → ∃ task, w.tasks t = some task ∧ task.job = task'.job ∧
        task.phase.attempt = some a := by
    intro t₀ task₀ htasks hne
    rw [htasks, Function.update_of_ne hne] at htask'
    exact ⟨task', htask', rfl, ha⟩
  have own : ∀ {task₀ : Task}, w'.tasks = Function.update w.tasks t (some task₀) →
      task₀ = task' := by
    intro task₀ htasks
    rw [htasks, Function.update_self] at htask'
    exact Option.some.inj htask'
  rcases step_continues h with ⟨t₀, task, htask, hmove⟩ | ⟨t₀, job, -, rfl⟩ |
    ⟨t₀, task, b, rfl, htask, hhold, rfl⟩ | ⟨htasks, -⟩
  · obtain ⟨task₀, htasks, hjob, hphase⟩ := hmove.tasks
    rcases eq_or_ne t t₀ with rfl | hne
    · rw [← own htasks] at ha ⊢
      exact Or.inl ⟨task, htask, hjob.symm, hphase a ha⟩
    · exact Or.inl (kept htasks hne)
  · rcases eq_or_ne t t₀ with rfl | hne
    · rw [← own rfl] at ha
      cases ha
    · exact Or.inl (kept rfl hne)
  · rcases eq_or_ne t t₀ with rfl | hne
    · rw [← own rfl] at ha
      obtain rfl := captured_attempt task ha
      exact Or.inr ⟨rfl, hhold⟩
    · exact Or.inl (kept rfl hne)
  · exact Or.inl ⟨task', htasks ▸ htask', rfl, ha⟩

/-- A claim is of an attempt its task made. -/
theorem step_claims {action : Action} (h : step cfg w action = some w') {o : Origin}
    (ho : o ∈ w'.claims) : o ∈ w.claims ∨ ∃ task, w.tasks o.slot.task = some task ∧
      task.job = o.job ∧ task.phase.attempt = some o.attempt := by
  rcases step_continues h with ⟨t, task, htask, hmove⟩ | ⟨t, job, -, rfl⟩ |
    ⟨t, task, a, -, -, -, rfl⟩ | ⟨-, hclaims, -⟩
  · rcases hmove.claims o ho with ho | ⟨hjob, hattempt, howner⟩
    · exact Or.inl ho
    · exact Or.inr ⟨task, howner ▸ htask, hjob.symm, hattempt⟩
  · exact Or.inl ho
  · exact Or.inl ho
  · exact Or.inl (hclaims ▸ ho)

end Chars

end Moves

section Checkpoints

variable {cfg : Config} {w w' : World} {cp : CheckpointRef}

/-- The checkpoint is in a committed manifest or in a metadata write on the wire. -/
def World.Checkpointed (w : World) (cp : CheckpointRef) : Prop :=
  (∃ g ∈ w.gens, g.manifest.checkpoint = some cp) ∨
    ∃ mode m, Request.swap mode m none ∈ w.wire ∧ m.checkpoint = some cp

/-- The action writes this checkpoint. -/
def Action.Checkpoints (action : Action) (cp : CheckpointRef) : Prop :=
  ∃ view basis version policy writer now reply,
    action = .rewrite (.checkpoint view cp) basis version policy writer now reply

theorem Action.Rewrites.checkpoint {action : Action} {m : Manifest} (h : action.Rewrites w m)
    (hcp : m.checkpoint = some cp) : w.Checkpointed cp ∨ action.Checkpoints cp := by
  obtain ⟨job, basis, version, policy, writer, now, reply, rfl, hmay, hedit⟩ := h
  simp only [World.mayRewrite, World.held, Bool.and_eq_true, List.any_eq_true,
    decide_eq_true_eq] at hmay
  obtain ⟨⟨g, hg, hbasis, -⟩, -⟩ := hmay
  rcases MetaJob.manifest_logPart hedit with hlog | ⟨view, cp', rfl, -, hlog⟩
  · have hsame : m.checkpoint = basis.checkpoint := congrArg LogPart.checkpoint hlog
    exact Or.inl (Or.inl ⟨g, hg, by rw [hbasis, ← hsame, hcp]⟩)
  · have hnew : m.checkpoint = some cp' := congrArg LogPart.checkpoint hlog
    obtain rfl := Option.some.inj (hcp.symm.trans hnew)
    exact Or.inr ⟨view, basis, version, policy, writer, now, reply, rfl⟩

variable [Text.CharTables]

/-- A claim that is committed keeps the checkpoint of its basis. -/
theorem Chain.append_checkpoint {g g' : Generation} {gens : List Generation}
    (h : Chain cfg (g' :: g :: gens)) (ho : g'.origin.isSome) :
    g'.manifest.checkpoint = g.manifest.checkpoint := by
  cases h with
  | append older o now m version basis wrote burned edit newer =>
    have hlog := Job.manifest_logPart edit (fun hb => wrote.lastSeq_of_not_batch hb)
      (basis ▸ older.logSpec.sorted_append burned.1)
    rw [basis] at hlog
    exact congrArg LogPart.checkpoint hlog
  | rewrite older job policy writer now m version edit folded newer => cases ho

/-- A checkpoint comes from the write that made it. -/
theorem step_checkpointed {action : Action} (hinv : Inv cfg w) (h : step cfg w action = some w')
    (hcp : w'.Checkpointed cp) : w.Checkpointed cp ∨ action.Checkpoints cp := by
  obtain ⟨current, older, hgens, -⟩ := hinv.current
  have committed : ∀ g, w'.gens = g :: w.gens → g.origin.isSome → g.manifest.checkpoint = some cp →
      w.Checkpointed cp := by
    intro g hnew ho hg
    have hchain := (hinv.step action h).chain
    rw [hnew, hgens] at hchain
    rw [hchain.append_checkpoint ho] at hg
    exact Or.inl ⟨current, by simp [hgens], hg⟩
  rcases step_continues h with ⟨t, task, htask, hmove⟩ | ⟨t, job, -, rfl⟩ |
    ⟨t, task, a, -, -, -, rfl⟩ | ⟨-, -, hwire, hgens'⟩
  · rcases hcp with ⟨g, hg, hgcp⟩ | ⟨mode, m, hmem, hm⟩
    · rcases hmove.gens with hsame | ⟨g', hnew, ho⟩
      · exact Or.inl (Or.inl ⟨g, hsame ▸ hg, hgcp⟩)
      · rcases List.mem_cons.mp (hnew ▸ hg) with rfl | hg
        · exact Or.inl (committed g hnew ho hgcp)
        · exact Or.inl (Or.inl ⟨g, hg, hgcp⟩)
    · exact Or.inl (Or.inr ⟨mode, m, hmove.wire mode m hmem, hm⟩)
  · exact Or.inl hcp
  · exact Or.inl hcp
  · rcases hcp with ⟨g, hg, hgcp⟩ | ⟨mode, m, hmem, hm⟩
    · rcases hgens' with hsame | ⟨g', hnew, hfrom⟩
      · exact Or.inl (Or.inl ⟨g, hsame ▸ hg, hgcp⟩)
      · rcases List.mem_cons.mp (hnew ▸ hg) with rfl | hg
        · rcases hfrom with ho | ⟨mode, hmem⟩ | hrewrites
          · exact Or.inl (committed g hnew ho hgcp)
          · exact Or.inl (Or.inr ⟨mode, g.manifest, hmem, hgcp⟩)
          · exact hrewrites.checkpoint hgcp
        · exact Or.inl (Or.inl ⟨g, hg, hgcp⟩)
    · rcases hwire mode m hmem with hmem | hrewrites
      · exact Or.inl (Or.inr ⟨mode, m, hmem, hm⟩)
      · exact hrewrites.checkpoint hm

end Checkpoints

section Seen

variable {cfg : Config} {w w' : World} {t : ℕ}

/-- The manifest was committed under that version. -/
def World.Generated (w : World) (m : Manifest) (version : ℕ) : Prop :=
  ∃ g ∈ w.gens, g.manifest = m ∧ g.version = version

/-- What a task has seen of the commit of its segment; a control write never looks again. -/
def Task.Seen (w : World) (task : Task) : Prop :=
  match task.phase with
  | .rereading .. => task.job.isControl = false
  | .confirming _ _ m v _ => task.job.isControl = false ∧ w.Generated m v
  | .committed _ σ m v => w.Generated m v ∧ σ.lastSeq ≤ m.headSeq ∧
      (task.job.isControl → m.headSeq = σ.lastSeq)
  | _ => True

theorem World.Generated.mono {m : Manifest} {v : ℕ} (hgens : w.gens ⊆ w'.gens)
    (h : w.Generated m v) : w'.Generated m v := by
  obtain ⟨g, hg, hsame⟩ := h
  exact ⟨g, hgens hg, hsame⟩

theorem Task.Seen.mono {task : Task} (hgens : w.gens ⊆ w'.gens) (h : task.Seen w) :
    task.Seen w' := by
  unfold Task.Seen at h ⊢
  split at h
  · exact h
  · exact ⟨h.1, h.2.mono hgens⟩
  · exact ⟨h.1.mono hgens, h.2⟩
  · trivial

theorem seen_update {task' : Task} (hgens : w.gens ⊆ w'.gens)
    (htasks : w'.tasks = Function.update w.tasks t (some task')) (hnew : task'.Seen w')
    (h : ∀ t task, w.tasks t = some task → task.Seen w) :
    ∀ t task, w'.tasks t = some task → task.Seen w' := by
  intro t₀ task₀ htask₀
  rw [htasks, Function.update_apply] at htask₀
  split_ifs at htask₀
  · exact Option.some.inj htask₀ ▸ hnew
  · exact (h t₀ task₀ htask₀).mono hgens

theorem retry_seen (cfg : Config) (task : Task) : (task.retry cfg).Seen w := by
  simp only [Task.retry]
  split_ifs <;> trivial

variable [Text.CharTables]

theorem captured_seen (task : Task) (a : Attempt) : (captured task a).Seen w := by
  unfold captured
  split
  · trivial
  · split <;> trivial
  · trivial

theorem Inv.current_generated (h : Inv cfg w) {m : Manifest} {v : ℕ}
    (hcur : w.current = some (m, v)) : w.Generated m v := by
  obtain ⟨g, gs, hgens, hobj⟩ := h.current
  simp only [World.current, hobj, Option.some.injEq, Prod.mk.injEq] at hcur
  exact ⟨g, by simp [hgens], hcur⟩

/-- A control write moves the head to its entry. -/
theorem manifest_headSeq_control {job : Job} (hcontrol : job.isControl) {a : Attempt}
    {now : Timestamp} {seg : LogSegmentRef} {m : Manifest}
    (h : job.manifest a now seg = .ok m) : m.headSeq = seg.lastSeq := by
  cases job with
  | control c =>
    simp only [Job.manifest, Checks.bind_eq_ok] at h
    obtain ⟨⟨template, next⟩, -, h⟩ := h
    cases h
    rfl
  | _ => cases hcontrol

/-- A committed segment that a manifest lists ends at or below its head. -/
theorem Inv.listed_lastSeq (h : Inv cfg w) {o : Origin} (ho : Committed w o) {m : Manifest} {v : ℕ}
    (hm : w.Generated m v) (hlisted : o.slot.listedIn cfg m) : o.slot.lastSeq ≤ m.headSeq := by
  obtain ⟨g, hg, rfl, -⟩ := hm
  obtain ⟨g', hg', ho⟩ := ho
  obtain ⟨s, hs, hsame⟩ := List.any_eq_true.mp hlisted
  simp only [Bool.and_eq_true, decide_eq_true_eq] at hsame
  obtain ⟨pre, suf, hsplit⟩ := List.append_of_mem hg
  have hsuffix : (g :: suf) <:+ w.gens := ⟨pre, hsplit.symm⟩
  have hlog := (h.chain.suffix hsuffix).logSpec
  obtain ⟨g₁, hg₁, p, hp, rfl⟩ := committedSegments_mem (hlog.listed_mem hs).1
  obtain ⟨current, gs, hgens, -⟩ := h.current
  have hchain := h.chain
  rw [hgens] at hchain hg'
  -- Two committed segments with the same first entry are one segment.
  have hp' := hchain.ref_mem (hgens ▸ hsuffix.subset hg₁) hp
  have ho' := hchain.ref_mem hg' ho
  have hseq : p.slot.firstSeq = o.slot.firstSeq := hsame.1.2
  have heq : p.slot.ref cfg = o.slot.ref cfg :=
    hchain.logSpec.committed_unique hp'.2 ho'.2 ⟨le_rfl, hp'.1.first_le_last⟩
      ⟨hseq.ge, hseq.trans_le ho'.1.first_le_last⟩
  have hle := (hlog.proper _ (hlog.listed_mem hs).1).2.2
  rw [heq] at hle
  exact hle

/-- Whatever a task sees of its commit is so, in every run. -/
theorem step_seen {action : Action} (hinv : Inv cfg w) (h : step cfg w action = some w')
    (hseen : ∀ t task, w.tasks t = some task → task.Seen w) :
    ∀ t task, w'.tasks t = some task → task.Seen w' := by
  have hgens : w.gens ⊆ w'.gens := by
    rcases step_gens h with heq | ⟨g, heq⟩
    · exact heq ▸ List.Subset.refl _
    · exact heq ▸ List.subset_cons_self _ _
  have same : w'.tasks = w.tasks → ∀ t task, w'.tasks t = some task → task.Seen w' :=
    fun htasks t task htask => (hseen t task (htasks ▸ htask)).mono hgens
  cases action with
  | start t job =>
    obtain ⟨-, rfl⟩ := step_start h
    exact seen_update hgens rfl trivial hseen
  | capture t a =>
    obtain ⟨task, -, -, -, rfl⟩ := step_capture h
    exact seen_update hgens rfl (captured_seen task a) hseen
  | abort t message =>
    obtain ⟨task, -, -, rfl⟩ := step_abort h
    exact seen_update hgens rfl trivial hseen
  | claim t uuid clock reply =>
    obtain ⟨task, a, seq, burned, -, -, h⟩ := step_claim h
    cases reply with
    | delivered =>
      simp only [World.claim] at h
      split_ifs at h
      split at h
      · cases h
      · split at h <;> cases h <;> exact seen_update hgens rfl trivial hseen
    | lost message =>
      simp only [World.claim] at h
      split_ifs at h
      split at h <;> cases h
      exact seen_update hgens rfl trivial hseen
  | probe t failure =>
    obtain ⟨task, a, seq, burned, probes, -, -, h | ⟨e, rfl⟩⟩ := step_probe h
    · simp only [World.probe, Option.bind_eq_bind, Option.bind_eq_some_iff] at h
      obtain ⟨m, -, h⟩ := h
      split_ifs at h <;> cases h
      · exact seen_update hgens rfl (retry_seen cfg task) hseen
      · exact seen_update hgens rfl trivial hseen
    · exact seen_update hgens rfl trivial hseen
  | head t failure =>
    obtain ⟨task, a, seq, burned, probes, -, -, rfl | ⟨e, rfl⟩⟩ := step_head h
    · revert hgens
      unfold World.head
      split
      · exact fun hgens => seen_update hgens rfl trivial hseen
      · simp only
        split_ifs <;> exact fun hgens => seen_update hgens rfl trivial hseen
    · exact seen_update hgens rfl trivial hseen
  | refuse t message dropSlot =>
    obtain ⟨task, -, -, rfl | ⟨a, σ, -, rfl⟩⟩ := step_refuse h <;>
      exact seen_update hgens rfl trivial hseen
  | swap t now reply =>
    have hinv' := hinv.step _ h
    obtain ⟨task, a, σ, htask, hphase, h⟩ := step_swap h
    simp only [World.swap, Option.bind_eq_bind, Option.bind_eq_some_iff] at h
    obtain ⟨m, hedit, h⟩ := h
    cases reply with
    | delivered =>
      simp only at h
      split_ifs at h <;> cases h
      · refine seen_update hgens rfl ⟨⟨_, List.mem_cons_self, rfl, rfl⟩, ?_, fun hcontrol => ?_⟩ hseen
        · exact (hinv'.chain.lastSeq_le List.mem_cons_self rfl).2
        · exact manifest_headSeq_control hcontrol (Checks.toOption_eq_some.mp hedit)
      · exact seen_update hgens rfl (retry_seen cfg task) hseen
    | lost message =>
      simp only at h
      split at h <;> cases h
      · exact seen_update hgens rfl trivial hseen
      · rename_i hjob
        refine seen_update hgens rfl ?_ hseen
        change task.job.isControl = false
        cases hj : task.job with
        | control c => exact absurd hj (hjob c)
        | _ => rfl
  | reread t failure =>
    obtain ⟨task, a, σ, message, htask, hphase, h | ⟨e, rfl⟩⟩ := step_reread h
    · simp only [World.reread, Option.bind_eq_bind, Option.bind_eq_some_iff] at h
      obtain ⟨⟨m, v⟩, hcur, h⟩ := h
      have hold := hseen t task htask
      simp only [Task.Seen, hphase] at hold
      split_ifs at h <;> cases h
      · exact seen_update hgens rfl ⟨hold, hinv.current_generated hcur⟩ hseen
      · exact seen_update hgens rfl trivial hseen
    · exact seen_update hgens rfl trivial hseen
  | confirm t failure =>
    obtain ⟨task, a, σ, m, v, message, htask, hphase, rfl | ⟨e, rfl⟩⟩ := step_confirm h
    · have hold := hseen t task htask
      simp only [Task.Seen, hphase] at hold
      have hok := hinv.tasks t task htask
      unfold TaskOk at hok
      rw [hphase] at hok
      obtain ⟨hclaim, hlisted, hgen⟩ := hok
      revert hgens
      unfold World.confirm
      split_ifs with hbytes
      · intro hgens
        have hcommitted := hinv.listed_committed hclaim hlisted hgen hbytes
        refine seen_update hgens rfl ⟨hold.2, hinv.listed_lastSeq hcommitted hold.2 hlisted, ?_⟩ hseen
        intro hcontrol
        exact absurd (hold.1.symm.trans hcontrol) (by simp)
      · exact fun hgens => seen_update hgens rfl trivial hseen
    · exact seen_update hgens rfl trivial hseen
  | finish t =>
    obtain ⟨task, a, σ, m, v, -, -, rfl⟩ := step_finish h
    exact seen_update hgens rfl trivial hseen
  | crash t =>
    obtain ⟨task, -, -, rfl⟩ := step_crash h
    exact seen_update hgens rfl trivial hseen
  | rewrite job basis version policy writer now reply =>
    obtain ⟨m, -, -, rfl | rfl⟩ := step_rewrite h
    · exact same (land_tasks w _)
    · exact same rfl
  | land k =>
    obtain ⟨r, -, rfl⟩ := step_land h
    exact same (land_tasks _ r)
  | lose k =>
    obtain rfl := step_lose h
    exact same rfl

end Seen

end Walgit
