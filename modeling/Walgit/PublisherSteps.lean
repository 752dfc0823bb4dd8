import Walgit.Publisher

/-!
# What a step can do

One inversion lemma for each action; no other module unfolds `step`.
-/
namespace Walgit

section Moves

variable {cfg : Config} {w w' : World} {t : ℕ}

theorem probe_sets {task : Task} {a : Attempt} {seq probes : ℕ} {burned : List (ℕ × ℕ)}
    (h : w.probe cfg t task a seq burned probes = some w') :
    ∃ task', w' = w.setTask t task' ∧ task'.job = task.job := by
  simp only [World.probe, Option.bind_eq_bind, Option.bind_eq_some_iff] at h
  obtain ⟨m, -, h⟩ := h
  split_ifs at h <;> cases h
  · exact ⟨_, rfl, Task.retry_job cfg task⟩
  · exact ⟨_, rfl, rfl⟩

theorem head_sets (w : World) (t : ℕ) (task : Task) (a : Attempt) (seq : ℕ)
    (burned : List (ℕ × ℕ)) (probes : ℕ) :
    ∃ task', w.head t task a seq burned probes = w.setTask t task' ∧ task'.job = task.job := by
  unfold World.head
  split
  · exact ⟨_, rfl, rfl⟩
  · simp only
    split_ifs <;> exact ⟨_, rfl, rfl⟩

theorem reread_sets {task : Task} {a : Attempt} {σ : Slot} {message : String}
    (h : w.reread cfg t task a σ message = some w') :
    ∃ task', w' = w.setTask t task' ∧ task'.job = task.job := by
  simp only [World.reread, Option.bind_eq_bind, Option.bind_eq_some_iff] at h
  obtain ⟨m, -, h⟩ := h
  split_ifs at h <;> cases h <;> exact ⟨_, rfl, rfl⟩

theorem confirm_sets (w : World) (t : ℕ) (task : Task) (a : Attempt) (σ : Slot) (m : Manifest)
    (v : ℕ) (message : String) :
    ∃ task', w.confirm t task a σ m v message = w.setTask t task' ∧ task'.job = task.job := by
  unfold World.confirm
  split_ifs <;> exact ⟨_, rfl, rfl⟩

theorem land_tasks (w : World) (r : Request) : (w.land r).tasks = w.tasks := by
  cases r with
  | create seq bytes =>
    simp only [World.land]
    split <;> rfl
  | delete seq version => rfl
  | swap mode m origin =>
    simp only [World.land]
    split_ifs <;> rfl

/-- What a landing request commits. -/
theorem land_gens (w : World) (r : Request) : (w.land r).gens = w.gens ∨
    ∃ mode m origin, r = .swap mode m origin ∧
      (w.land r).gens = ⟨m, w.store.next, origin⟩ :: w.gens := by
  cases r with
  | create seq bytes =>
    simp only [World.land]
    split <;> exact Or.inl rfl
  | delete seq version => exact Or.inl rfl
  | swap mode m origin =>
    simp only [World.land]
    split_ifs
    · exact Or.inr ⟨mode, m, origin, rfl, rfl⟩
    · exact Or.inl rfl

end Moves

section Steps

variable [Text.CharTables] {cfg : Config} {w w' : World} {t : ℕ}

attribute [local simp] step

theorem step_start {job : Job} (h : step cfg w (.start t job) = some w') :
    w.tasks t = none ∧ w' = w.setTask t ⟨job, 0, .ready⟩ := by
  have ⟨hnew, hnext⟩ : w.tasks t = none ∧ w.setTask t ⟨job, 0, .ready⟩ = w' := by simpa using h
  exact ⟨hnew, hnext.symm⟩

theorem step_capture {a : Attempt} (h : step cfg w (.capture t a) = some w') :
    ∃ task, w.tasks t = some task ∧ task.phase = .ready ∧ w.canHold a.basis ∧
      w' = w.setTask t (captured task a) := by
  simp only [step, Option.bind_eq_bind, Option.bind_eq_some_iff] at h
  obtain ⟨task, htask, h⟩ := h
  split at h
  · rename_i hphase
    split_ifs at h with hhold
    cases h
    exact ⟨task, htask, hphase, hhold, rfl⟩
  · cases h

theorem step_abort {message : String} (h : step cfg w (.abort t message) = some w') :
    ∃ task, w.tasks t = some task ∧ task.phase = .ready ∧
      w' = w.setTask t (task.finishWith (definiteError task.job (.store message))) := by
  simp only [step, Option.bind_eq_bind, Option.bind_eq_some_iff] at h
  obtain ⟨task, htask, h⟩ := h
  split at h <;> cases h
  rename_i hphase
  exact ⟨task, htask, hphase, rfl⟩

theorem step_claim {uuid : String} {clock : ℕ → Timestamp} {reply : Reply}
    (h : step cfg w (.claim t uuid clock reply) = some w') :
    ∃ task a seq burned, w.tasks t = some task ∧ task.phase = .claiming a seq burned ∧
      w.claim t task a seq burned uuid clock reply = some w' := by
  simp only [step, Option.bind_eq_bind, Option.bind_eq_some_iff] at h
  obtain ⟨task, htask, h⟩ := h
  split at h
  · rename_i hphase
    exact ⟨task, _, _, _, htask, hphase, h⟩
  · cases h

theorem step_probe {failure : Option String} (h : step cfg w (.probe t failure) = some w') :
    ∃ task a seq burned probes, w.tasks t = some task ∧ task.phase = .probing a seq burned probes ∧
      (w.probe cfg t task a seq burned probes = some w' ∨
        ∃ e, w' = w.setTask t (task.finishWith (unknownError task.job (.store e)))) := by
  simp only [step, Option.bind_eq_bind, Option.bind_eq_some_iff] at h
  obtain ⟨task, htask, h⟩ := h
  split at h
  · rename_i hphase
    exact ⟨task, _, _, _, _, htask, hphase, Or.inl h⟩
  · rename_i hphase
    cases h
    exact ⟨task, _, _, _, _, htask, hphase, Or.inr ⟨_, rfl⟩⟩
  · cases h

theorem step_head {failure : Option String} (h : step cfg w (.head t failure) = some w') :
    ∃ task a seq burned probes, w.tasks t = some task ∧ task.phase = .heading a seq burned probes ∧
      (w' = w.head t task a seq burned probes ∨
        ∃ e, w' = w.setTask t (task.finishWith (unknownError task.job (.store e)))) := by
  simp only [step, Option.bind_eq_bind, Option.bind_eq_some_iff] at h
  obtain ⟨task, htask, h⟩ := h
  split at h
  · rename_i hphase
    cases h
    exact ⟨task, _, _, _, _, htask, hphase, Or.inl rfl⟩
  · rename_i hphase
    cases h
    exact ⟨task, _, _, _, _, htask, hphase, Or.inr ⟨_, rfl⟩⟩
  · cases h

/-- A refusal ends the task before its swap; only a compaction takes its slot back. -/
theorem step_refuse {message : String} {dropSlot : Bool}
    (h : step cfg w (.refuse t message dropSlot) = some w') :
    ∃ task, w.tasks t = some task ∧ task.phase.unsent ∧
      (w' = w.setTask t (task.finishWith (definiteError task.job (.invalid message))) ∨
        ∃ a σ, task.phase = .swapping a σ ∧
          w' = (w.send [.delete σ.firstSeq σ.version]).setTask t
            (task.finishWith (definiteError task.job (.invalid message)))) := by
  simp only [step, Option.bind_eq_bind, Option.bind_eq_some_iff] at h
  obtain ⟨task, htask, h⟩ := h
  split at h <;> cases h
  · rename_i hphase
    refine ⟨task, htask, by simp [Phase.unsent, hphase], ?_⟩
    split_ifs
    · exact Or.inr ⟨_, _, hphase, rfl⟩
    · exact Or.inl rfl
  all_goals
    rename_i hphase
    exact ⟨task, htask, by simp [Phase.unsent, hphase], Or.inl rfl⟩

theorem step_swap {now : Timestamp} {reply : Reply} (h : step cfg w (.swap t now reply) = some w') :
    ∃ task a σ, w.tasks t = some task ∧ task.phase = .swapping a σ ∧
      w.swap cfg t task a σ now reply = some w' := by
  simp only [step, Option.bind_eq_bind, Option.bind_eq_some_iff] at h
  obtain ⟨task, htask, h⟩ := h
  split at h
  · rename_i hphase
    exact ⟨task, _, _, htask, hphase, h⟩
  · cases h

theorem step_reread {failure : Option String} (h : step cfg w (.reread t failure) = some w') :
    ∃ task a σ message, w.tasks t = some task ∧ task.phase = .rereading a σ message ∧
      (w.reread cfg t task a σ message = some w' ∨
        ∃ e, w' = w.setTask t (task.finishWith (rereadError task.job message e))) := by
  simp only [step, Option.bind_eq_bind, Option.bind_eq_some_iff] at h
  obtain ⟨task, htask, h⟩ := h
  split at h
  · rename_i hphase
    exact ⟨task, _, _, _, htask, hphase, Or.inl h⟩
  · rename_i hphase
    cases h
    exact ⟨task, _, _, _, htask, hphase, Or.inr ⟨_, rfl⟩⟩
  · cases h

theorem step_confirm {failure : Option String} (h : step cfg w (.confirm t failure) = some w') :
    ∃ task a σ m v message, w.tasks t = some task ∧ task.phase = .confirming a σ m v message ∧
      (w' = w.confirm t task a σ m v message ∨
        ∃ e, w' = w.setTask t (task.finishWith (rereadError task.job message e))) := by
  simp only [step, Option.bind_eq_bind, Option.bind_eq_some_iff] at h
  obtain ⟨task, htask, h⟩ := h
  split at h
  · rename_i hphase
    cases h
    exact ⟨task, _, _, _, _, _, htask, hphase, Or.inl rfl⟩
  · rename_i hphase
    cases h
    exact ⟨task, _, _, _, _, _, htask, hphase, Or.inr ⟨_, rfl⟩⟩
  · cases h

theorem step_finish (h : step cfg w (.finish t) = some w') :
    ∃ task a σ m v, w.tasks t = some task ∧ task.phase = .committed a σ m v ∧
      w' = (w.send (σ.burned.map fun b => .delete b.1 b.2)).setTask t
        (task.finishWith (committedAnswers task.job a σ)) := by
  simp only [step, Option.bind_eq_bind, Option.bind_eq_some_iff] at h
  obtain ⟨task, htask, h⟩ := h
  split at h <;> cases h
  rename_i hphase
  exact ⟨task, _, _, _, _, htask, hphase, rfl⟩

theorem step_crash (h : step cfg w (.crash t) = some w') :
    ∃ task, w.tasks t = some task ∧ (∀ answers, task.phase ≠ .done answers) ∧
      w' = w.setTask t (task.goto .crashed) := by
  simp only [step, Option.bind_eq_bind, Option.bind_eq_some_iff] at h
  obtain ⟨task, htask, h⟩ := h
  split at h
  · cases h
  · rename_i hphase
    cases h
    exact ⟨task, htask, hphase, rfl⟩

theorem step_rewrite {job : MetaJob} {basis : Manifest} {version : ℕ} {policy : PackPolicy}
    {writer : String} {now : Timestamp} {reply : Reply}
    (h : step cfg w (.rewrite job basis version policy writer now reply) = some w') :
    ∃ m, w.mayRewrite job basis version ∧ job.manifest basis policy writer now = some m ∧
      (w' = w.land (.swap (.update version) m none) ∨
        w' = w.send [.swap (.update version) m none]) := by
  simp only [step, Option.bind_eq_bind] at h
  split_ifs at h with hmay
  obtain ⟨m, hedit, h⟩ := Option.bind_eq_some_iff.mp h
  refine ⟨m, by simpa using hmay, hedit, ?_⟩
  split at h <;> cases h
  · exact Or.inl rfl
  · exact Or.inr rfl

theorem step_land {k : ℕ} (h : step cfg w (.land k) = some w') :
    ∃ r ∈ w.wire, w' = { w with wire := w.wire.eraseIdx k }.land r := by
  simp only [step, Option.bind_eq_bind, Option.bind_eq_some_iff] at h
  obtain ⟨r, hr, h⟩ := h
  cases h
  exact ⟨r, List.mem_of_getElem? hr, rfl⟩

theorem step_lose {k : ℕ} (h : step cfg w (.lose k) = some w') :
    w' = { w with wire := w.wire.eraseIdx k } := by
  simp only [step] at h
  split_ifs at h
  cases h
  rfl

theorem claim_tasks {task : Task} {a : Attempt} {seq : ℕ} {burned : List (ℕ × ℕ)} {uuid : String}
    {clock : ℕ → Timestamp} {reply : Reply}
    (h : w.claim t task a seq burned uuid clock reply = some w') :
    ∃ task', w'.tasks = Function.update w.tasks t (some task') ∧ task'.job = task.job := by
  cases reply with
  | delivered =>
    simp only [World.claim] at h
    split_ifs at h
    split at h
    · cases h
    · split at h <;> cases h <;> exact ⟨_, rfl, rfl⟩
  | lost message =>
    simp only [World.claim] at h
    split_ifs at h
    split at h <;> cases h
    exact ⟨_, rfl, rfl⟩

theorem swap_tasks {task : Task} {a : Attempt} {σ : Slot} {now : Timestamp} {reply : Reply}
    (h : w.swap cfg t task a σ now reply = some w') :
    ∃ task', w'.tasks = Function.update w.tasks t (some task') ∧ task'.job = task.job := by
  simp only [World.swap, Option.bind_eq_bind, Option.bind_eq_some_iff] at h
  obtain ⟨m, -, h⟩ := h
  cases reply with
  | delivered =>
    simp only at h
    split_ifs at h <;> cases h
    · exact ⟨_, rfl, rfl⟩
    · exact ⟨_, rfl, Task.retry_job cfg task⟩
  | lost message =>
    simp only at h
    split at h <;> cases h <;> exact ⟨_, rfl, rfl⟩

/-- A step starts a task, moves an unfinished one, or touches none. -/
theorem step_tasks {action : Action} (h : step cfg w action = some w') :
    (∃ t job, action = .start t job ∧ w.tasks t = none ∧
      w'.tasks = Function.update w.tasks t (some ⟨job, 0, .ready⟩)) ∨
    w'.tasks = w.tasks ∨
    ∃ t task task', w.tasks t = some task ∧ (∀ answers, task.phase ≠ .done answers) ∧
      task'.job = task.job ∧ w'.tasks = Function.update w.tasks t (some task') := by
  have moved : ∀ {t task task'}, w.tasks t = some task → ∀ {phase : Phase}, task.phase = phase →
      (∀ answers, phase ≠ .done answers) → task'.job = task.job →
      w'.tasks = Function.update w.tasks t (some task') →
      ∃ t task task', w.tasks t = some task ∧ (∀ answers, task.phase ≠ .done answers) ∧
        task'.job = task.job ∧ w'.tasks = Function.update w.tasks t (some task') :=
    fun htask _ hphase hnot hjob htasks =>
      ⟨_, _, _, htask, fun answers hdone => hnot answers (hphase ▸ hdone), hjob, htasks⟩
  cases action with
  | start t job =>
    obtain ⟨hnew, rfl⟩ := step_start h
    exact Or.inl ⟨t, job, rfl, hnew, rfl⟩
  | capture t a =>
    obtain ⟨task, htask, hphase, -, rfl⟩ := step_capture h
    exact Or.inr (Or.inr (moved htask hphase (by simp) (captured_job task a) rfl))
  | abort t message =>
    obtain ⟨task, htask, hphase, rfl⟩ := step_abort h
    exact Or.inr (Or.inr (moved htask hphase (by simp) (Task.finishWith_job _ _) rfl))
  | claim t uuid clock reply =>
    obtain ⟨task, a, seq, burned, htask, hphase, h⟩ := step_claim h
    obtain ⟨task', htasks, hjob⟩ := claim_tasks h
    exact Or.inr (Or.inr (moved htask hphase (by simp) hjob htasks))
  | probe t failure =>
    obtain ⟨task, a, seq, burned, probes, htask, hphase, h | ⟨e, rfl⟩⟩ := step_probe h
    · obtain ⟨task', rfl, hjob⟩ := probe_sets h
      exact Or.inr (Or.inr (moved htask hphase (by simp) hjob rfl))
    · exact Or.inr (Or.inr (moved htask hphase (by simp) (Task.finishWith_job _ _) rfl))
  | head t failure =>
    obtain ⟨task, a, seq, burned, probes, htask, hphase, rfl | ⟨e, rfl⟩⟩ := step_head h
    · obtain ⟨task', hw, hjob⟩ := head_sets w t task a seq burned probes
      exact Or.inr (Or.inr (moved htask hphase (by simp) hjob (congrArg World.tasks hw)))
    · exact Or.inr (Or.inr (moved htask hphase (by simp) (Task.finishWith_job _ _) rfl))
  | refuse t message dropSlot =>
    obtain ⟨task, htask, hphase, hw⟩ := step_refuse h
    have hnot : ∀ answers, task.phase ≠ .done answers := by
      intro answers hdone
      simp [hdone, Phase.unsent] at hphase
    have htasks : w'.tasks = Function.update w.tasks t
        (some (task.finishWith (definiteError task.job (.invalid message)))) := by
      rcases hw with rfl | ⟨a, σ, -, rfl⟩ <;> rfl
    exact Or.inr (Or.inr ⟨t, task, _, htask, hnot, Task.finishWith_job _ _, htasks⟩)
  | swap t now reply =>
    obtain ⟨task, a, σ, htask, hphase, h⟩ := step_swap h
    obtain ⟨task', htasks, hjob⟩ := swap_tasks h
    exact Or.inr (Or.inr (moved htask hphase (by simp) hjob htasks))
  | reread t failure =>
    obtain ⟨task, a, σ, message, htask, hphase, h | ⟨e, rfl⟩⟩ := step_reread h
    · obtain ⟨task', rfl, hjob⟩ := reread_sets h
      exact Or.inr (Or.inr (moved htask hphase (by simp) hjob rfl))
    · exact Or.inr (Or.inr (moved htask hphase (by simp) (Task.finishWith_job _ _) rfl))
  | confirm t failure =>
    obtain ⟨task, a, σ, m, v, message, htask, hphase, rfl | ⟨e, rfl⟩⟩ := step_confirm h
    · obtain ⟨task', hw, hjob⟩ := confirm_sets w t task a σ m v message
      exact Or.inr (Or.inr (moved htask hphase (by simp) hjob (congrArg World.tasks hw)))
    · exact Or.inr (Or.inr (moved htask hphase (by simp) (Task.finishWith_job _ _) rfl))
  | finish t =>
    obtain ⟨task, a, σ, m, v, htask, hphase, rfl⟩ := step_finish h
    exact Or.inr (Or.inr (moved htask hphase (by simp) (Task.finishWith_job _ _) rfl))
  | crash t =>
    obtain ⟨task, htask, hphase, rfl⟩ := step_crash h
    exact Or.inr (Or.inr ⟨t, task, _, htask, hphase, Task.goto_job _ _, rfl⟩)
  | rewrite job basis version policy writer now reply =>
    obtain ⟨m, -, -, rfl | rfl⟩ := step_rewrite h
    · exact Or.inr (Or.inl (land_tasks w _))
    · exact Or.inr (Or.inl rfl)
  | land k =>
    obtain ⟨r, hr, rfl⟩ := step_land h
    exact Or.inr (Or.inl (land_tasks _ r))
  | lose k =>
    obtain rfl := step_lose h
    exact Or.inr (Or.inl rfl)

/-- A claim commits nothing. -/
theorem claim_gens {uuid : String} {clock : ℕ → Timestamp} {reply : Reply}
    (h : step cfg w (.claim t uuid clock reply) = some w') : w'.gens = w.gens := by
  obtain ⟨task, a, seq, burned, -, -, h⟩ := step_claim h
  cases reply with
  | delivered =>
    simp only [World.claim] at h
    split_ifs at h
    split at h
    · cases h
    · split at h <;> cases h <;> rfl
  | lost message =>
    simp only [World.claim] at h
    split_ifs at h
    split at h <;> cases h
    rfl

/-- A step commits one generation at most. -/
theorem step_gens {action : Action} (h : step cfg w action = some w') :
    w'.gens = w.gens ∨ ∃ g, w'.gens = g :: w.gens := by
  cases action with
  | start t job =>
    obtain ⟨-, rfl⟩ := step_start h
    exact Or.inl rfl
  | capture t a =>
    obtain ⟨task, -, -, -, rfl⟩ := step_capture h
    exact Or.inl rfl
  | abort t message =>
    obtain ⟨task, -, -, rfl⟩ := step_abort h
    exact Or.inl rfl
  | claim t uuid clock reply => exact Or.inl (claim_gens h)
  | probe t failure =>
    obtain ⟨task, a, seq, burned, probes, -, -, h | ⟨e, rfl⟩⟩ := step_probe h
    · obtain ⟨_, rfl, -⟩ := probe_sets h
      exact Or.inl rfl
    · exact Or.inl rfl
  | head t failure =>
    obtain ⟨task, a, seq, burned, probes, -, -, rfl | ⟨e, rfl⟩⟩ := step_head h
    · obtain ⟨_, hw, -⟩ := head_sets w t task a seq burned probes
      rw [hw]
      exact Or.inl rfl
    · exact Or.inl rfl
  | refuse t message dropSlot =>
    obtain ⟨task, -, -, rfl | ⟨a, σ, -, rfl⟩⟩ := step_refuse h <;> exact Or.inl rfl
  | swap t now reply =>
    obtain ⟨task, a, σ, -, -, h⟩ := step_swap h
    simp only [World.swap, Option.bind_eq_bind, Option.bind_eq_some_iff] at h
    obtain ⟨m, -, h⟩ := h
    cases reply with
    | delivered =>
      simp only at h
      split_ifs at h <;> cases h
      · exact Or.inr ⟨_, rfl⟩
      · exact Or.inl rfl
    | lost message =>
      simp only at h
      split at h <;> cases h <;> exact Or.inl rfl
  | reread t failure =>
    obtain ⟨task, a, σ, message, -, -, h | ⟨e, rfl⟩⟩ := step_reread h
    · obtain ⟨_, rfl, -⟩ := reread_sets h
      exact Or.inl rfl
    · exact Or.inl rfl
  | confirm t failure =>
    obtain ⟨task, a, σ, m, v, message, -, -, rfl | ⟨e, rfl⟩⟩ := step_confirm h
    · obtain ⟨_, hw, -⟩ := confirm_sets w t task a σ m v message
      rw [hw]
      exact Or.inl rfl
    · exact Or.inl rfl
  | finish t =>
    obtain ⟨task, a, σ, m, v, -, -, rfl⟩ := step_finish h
    exact Or.inl rfl
  | crash t =>
    obtain ⟨task, -, -, rfl⟩ := step_crash h
    exact Or.inl rfl
  | rewrite job basis version policy writer now reply =>
    obtain ⟨m, -, -, rfl | rfl⟩ := step_rewrite h
    · rcases land_gens w (.swap (.update version) m none) with hl | ⟨_, _, _, -, hl⟩
      · exact Or.inl hl
      · exact Or.inr ⟨_, hl⟩
    · exact Or.inl rfl
  | land k =>
    obtain ⟨r, -, rfl⟩ := step_land h
    rcases land_gens { w with wire := w.wire.eraseIdx k } r with hl | ⟨_, _, _, -, hl⟩
    · exact Or.inl hl
    · exact Or.inr ⟨_, hl⟩
  | lose k =>
    obtain rfl := step_lose h
    exact Or.inl rfl

/-- The record of generations only grows. -/
theorem run_gens {actions : List Action} (h : Runs.run (step cfg) w actions = some w') :
    w.gens <:+ w'.gens := by
  refine Runs.run_induction (P := fun _ x => w.gens <:+ x.gens) (List.suffix_refl _) ?_ h
  intro as x action y hx hstep
  rcases step_gens hstep with heq | ⟨g, heq⟩
  · exact heq ▸ hx
  · exact heq ▸ hx.trans (List.suffix_cons _ _)

/-- An answered task stays as it is. -/
theorem step_done {action : Action} (h : step cfg w action = some w') {task : Task}
    {answers : List Answer} (htask : w.tasks t = some task) (hdone : task.phase = .done answers) :
    w'.tasks t = some task := by
  rcases step_tasks h with ⟨t', job, -, hnew, htasks⟩ | htasks | ⟨t', x, x', hx, hnot, -, htasks⟩
  · rw [htasks, Function.update_apply]
    split_ifs with heq
    · rw [← heq, htask] at hnew
      cases hnew
    · exact htask
  · rw [htasks]
    exact htask
  · rw [htasks, Function.update_apply]
    split_ifs with heq
    · rw [← heq, htask] at hx
      cases hx
      exact absurd hdone (hnot answers)
    · exact htask

/-- A task keeps the job it was started with. -/
theorem step_jobs {action : Action} (h : step cfg w action = some w') {task' : Task}
    (htask' : w'.tasks t = some task') :
    action = .start t task'.job ∨ ∃ task, w.tasks t = some task ∧ task.job = task'.job := by
  rcases step_tasks h with ⟨t', job, rfl, -, htasks⟩ | htasks | ⟨t', x, x', hx, -, hjob, htasks⟩
  · rw [htasks, Function.update_apply] at htask'
    split_ifs at htask' with heq
    · cases htask'
      exact Or.inl (heq ▸ rfl)
    · exact Or.inr ⟨task', htask', rfl⟩
  · exact Or.inr ⟨task', htasks ▸ htask', rfl⟩
  · rw [htasks, Function.update_apply] at htask'
    split_ifs at htask' with heq
    · cases htask'
      exact Or.inr ⟨x, heq ▸ hx, hjob.symm⟩
    · exact Or.inr ⟨task', htask', rfl⟩

end Steps

end Walgit
