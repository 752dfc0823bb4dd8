import Walgit.PublisherRuns

/-!
# Settling a batch

How the answers of `process_batch` come about: from an error before anything was sent,
from an attempt without accepted members, or from the one claim the task ever sent.
-/
namespace Walgit

/-- The attempt task `t` is on, or ended with. -/
def lastCapture (t : ℕ) (actions : List Action) : Option Attempt :=
  actions.foldl (fun last action =>
    match action with
    | .capture t' a => if t' = t then some a else last
    | _ => last) none

section Settled

/-- The claim is committed, or a swap of it is on the wire. -/
def Sent (w : World) (o : Origin) : Prop :=
  Committed w o ∨ ∃ mode m, Request.swap mode m (some o) ∈ w.wire

/-- Nothing of the task but this claim was ever sent. -/
def Sole (w : World) (t : ℕ) (o : Origin) : Prop := ∀ p, Sent w p → p.slot.task = t → p = o

theorem idle_iff {w : World} {t : ℕ} : Idle w t ↔ ∀ o, Sent w o → o.slot.task ≠ t := by
  constructor
  · rintro ⟨hc, hw⟩ o (ho | ⟨mode, m, ho⟩)
    · exact hc o ho
    · exact hw mode m o ho
  · intro h
    exact ⟨fun o ho => h o (Or.inl ho), fun mode m o ho => h o (Or.inr ⟨mode, m, ho⟩)⟩

variable {w w' : World} {actions : List Action}

theorem Idle.frame {t : ℕ} (hsent : ∀ o, o.slot.task = t → Sent w' o → Sent w o) (h : Idle w t) :
    Idle w' t :=
  idle_iff.mpr fun o ho heq => idle_iff.mp h o (hsent o heq ho) heq

theorem Sole.frame {t : ℕ} {o : Origin} (hsent : ∀ o, o.slot.task = t → Sent w' o → Sent w o)
    (h : Sole w t o) : Sole w' t o :=
  fun p hp ht => h p (hsent p ht hp) ht

theorem lastCapture_snoc {t : ℕ} {action : Action} (h : ∀ a, action ≠ .capture t a) :
    lastCapture t (actions ++ [action]) = lastCapture t actions := by
  unfold lastCapture
  rw [List.foldl_append, List.foldl_cons, List.foldl_nil]
  split
  · rename_i t' a
    rw [if_neg]
    rintro rfl
    exact h a rfl
  · rfl

theorem lastCapture_capture {t : ℕ} {a : Attempt} :
    lastCapture t (actions ++ [.capture t a]) = some a := by
  simp [lastCapture]

variable [Text.CharTables]

/-- Where the answers of a batch came from. -/
inductive AnswersOk (last : Option Attempt) (w : World) (t : ℕ) (job : Job) : List Answer → Prop
  | unknown (message : String) : AnswersOk last w t job (failAll job (.commitUnknown message))
  | failed (e : WalError) (definite : ∀ message, e ≠ .commitUnknown message) (idle : Idle w t) :
      AnswersOk last w t job (failAll job e)
  | unchanged (a : Attempt) (reqs : List PublishRequest) (batch : job = .batch reqs)
      (attempt : last = some a) (none : accepted reqs (verifyBatch a.basis reqs).1 = [])
      (idle : Idle w t) :
      AnswersOk last w t job ((responses 0 (verifyBatch a.basis reqs).1).map .ok)
  | committed (a : Attempt) (σ : Slot) (reqs : List PublishRequest) (batch : job = .batch reqs)
      (attempt : last = some a) (kept : Committed w ⟨job, a, σ⟩) (owner : σ.task = t)
      (sole : Sole w t ⟨job, a, σ⟩) :
      AnswersOk last w t job ((responses σ.firstSeq (verifyBatch a.basis reqs).1).map .ok)

/-- What the receipts need to know of a task. -/
def Settled (last : Option Attempt) (w : World) (t : ℕ) (task : Task) : Prop :=
  match task.phase with
  | .ready => True
  | .claiming a _ _ => last = some a
  | .probing a _ _ _ => last = some a
  | .heading a _ _ _ => last = some a
  | .swapping a _ => last = some a
  | .rereading a σ _ => last = some a ∧ σ.task = t ∧ Sole w t ⟨task.job, a, σ⟩
  | .confirming a σ _ _ _ => last = some a ∧ σ.task = t ∧ Sole w t ⟨task.job, a, σ⟩
  | .committed a σ _ _ => last = some a ∧ σ.task = t ∧ Sole w t ⟨task.job, a, σ⟩
  | .done answers => AnswersOk last w t task.job answers
  | .crashed => True

/-- Every batch a publisher is working on, or answered. -/
def Receipts (actions : List Action) (w : World) : Prop :=
  ∀ t task, w.tasks t = some task → task.job.isBatch → Settled (lastCapture t actions) w t task

theorem AnswersOk.frame {last : Option Attempt} {t : ℕ} {job : Job} {answers : List Answer}
    (hcommitted : ∀ o, Committed w o → Committed w' o)
    (hsent : ∀ o, o.slot.task = t → Sent w' o → Sent w o) (h : AnswersOk last w t job answers) :
    AnswersOk last w' t job answers := by
  cases h with
  | unknown message => exact .unknown message
  | failed e definite idle => exact .failed e definite (idle.frame hsent)
  | unchanged a reqs batch attempt none idle =>
    exact .unchanged a reqs batch attempt none (idle.frame hsent)
  | committed a σ reqs batch attempt kept owner sole =>
    exact .committed a σ reqs batch attempt (hcommitted _ kept) owner (sole.frame hsent)

/-- Steps that send nothing for a task leave what is known of it. -/
theorem Settled.frame {last : Option Attempt} {t : ℕ} {task : Task}
    (hcommitted : ∀ o, Committed w o → Committed w' o)
    (hsent : ∀ o, o.slot.task = t → Sent w' o → Sent w o) (h : Settled last w t task) :
    Settled last w' t task := by
  obtain ⟨job, attempts, phase⟩ := task
  cases phase with
  | ready => trivial
  | claiming a seq burned => exact h
  | probing a seq burned probes => exact h
  | heading a seq burned probes => exact h
  | swapping a σ => exact h
  | rereading a σ message => exact ⟨h.1, h.2.1, h.2.2.frame hsent⟩
  | confirming a σ m version message => exact ⟨h.1, h.2.1, h.2.2.frame hsent⟩
  | committed a σ m version => exact ⟨h.1, h.2.1, h.2.2.frame hsent⟩
  | done answers => exact AnswersOk.frame hcommitted hsent h
  | crashed => trivial

/-- One task moves, nobody else's claims are sent. -/
theorem Receipts.move (h : Receipts actions w) {t : ℕ} {task : Task} {action : Action}
    (haction : ∀ t' a, action = .capture t' a → t' = t)
    (htasks : w'.tasks = Function.update w.tasks t (some task))
    (hcommitted : ∀ o, Committed w o → Committed w' o)
    (hsent : ∀ o, o.slot.task ≠ t → Sent w' o → Sent w o)
    (hnew : task.job.isBatch → Settled (lastCapture t (actions ++ [action])) w' t task) :
    Receipts (actions ++ [action]) w' := by
  intro t' task' ht' hb
  rw [htasks, Function.update_apply] at ht'
  split_ifs at ht' with heq
  · cases ht'
    exact heq ▸ hnew hb
  · rw [lastCapture_snoc fun a ha => heq (haction t' a ha)]
    exact (h t' task' ht' hb).frame hcommitted fun o ho => hsent o (ho ▸ heq)

/-- A local step sends nothing but claims of its own task. -/
theorem Receipts.local (h : Receipts actions w) {t : ℕ} {task : Task} {rs : List Request}
    {action : Action} (hstep : LocalStep w w' t task rs)
    (haction : ∀ t' a, action = .capture t' a → t' = t)
    (hnew : task.job.isBatch → Settled (lastCapture t (actions ++ [action])) w' t task) :
    Receipts (actions ++ [action]) w' := by
  refine h.move haction hstep.tasks (fun o ho => hstep.committed_iff.mpr ho) ?_ hnew
  rintro o hne (ho | ⟨mode, m, hmem⟩)
  · exact Or.inl (hstep.committed_iff.mp ho)
  · rw [hstep.wire, List.mem_append] at hmem
    rcases hmem with hmem | hmem
    · exact Or.inr ⟨mode, m, hmem⟩
    · exact absurd (hstep.swaps mode m o hmem).2 hne

/-- No task moves and nothing new is sent. -/
theorem Receipts.world (h : Receipts actions w) {action : Action}
    (haction : ∀ t a, action ≠ .capture t a) (htasks : w'.tasks = w.tasks)
    (hcommitted : ∀ o, Committed w o → Committed w' o) (hsent : ∀ o, Sent w' o → Sent w o) :
    Receipts (actions ++ [action]) w' := by
  intro t task ht hb
  rw [htasks] at ht
  rw [lastCapture_snoc (haction t)]
  exact (h t task ht hb).frame hcommitted fun o _ => hsent o

theorem answersOk_unknown {last : Option Attempt} {t : ℕ} {job : Job} {e : WalError}
    (hb : job.isBatch) : AnswersOk last w t job (unknownError job e) := by
  cases job with
  | batch reqs => exact .unknown _
  | compact | control | sealPacks => cases hb

theorem answersOk_reread {last : Option Attempt} {t : ℕ} {job : Job} {message e : String}
    (hb : job.isBatch) : AnswersOk last w t job (rereadError job message e) := by
  cases job with
  | batch reqs => exact .unknown _
  | compact | control | sealPacks => cases hb

theorem answersOk_definite {last : Option Attempt} {t : ℕ} {job : Job} {e : WalError}
    (hb : job.isBatch) (hidle : Idle w t) : AnswersOk last w t job (definiteError job e) := by
  cases job with
  | batch reqs => exact .failed _ (by simp) hidle
  | compact | control | sealPacks => cases hb

theorem settled_retry {cfg : Config} {last : Option Attempt} {t : ℕ} {task : Task}
    (hb : task.job.isBatch) (hidle : Idle w t) : Settled last w t (task.retry cfg) := by
  simp only [Task.retry]
  split_ifs
  · exact answersOk_definite hb hidle
  · trivial

/-- A batch without accepted members is answered on the spot. -/
theorem settled_captured {t : ℕ} {task : Task} {a : Attempt} (hb : task.job.isBatch)
    (hidle : Idle w t) : Settled (some a) w t (captured task a) := by
  obtain ⟨job, attempts, phase⟩ := task
  cases job with
  | batch reqs =>
    simp only [captured, Job.entries]
    split
    · rename_i hentries
      cases hentries
    · rename_i hentries
      refine AnswersOk.unchanged a reqs rfl rfl ?_ hidle
      cases hmembers : accepted reqs (verifyBatch a.basis reqs).1 with
      | nil => rfl
      | cons m ms =>
        rw [hmembers] at hentries
        cases hentries
    · rfl
  | compact | control | sealPacks => cases hb

end Settled

section Steps

variable [Text.CharTables] {cfg : Config} {w w' : World} {actions : List Action}

theorem Receipts.settled (h : Receipts actions w) {t : ℕ} {task : Task} {phase : Phase}
    (htask : w.tasks t = some task) (hphase : task.phase = phase) (hb : task.job.isBatch) :
    Settled (lastCapture t actions) w t { task with phase := phase } := by
  have hset := h t task htask hb
  subst hphase
  exact hset

/-- A task may be answered with anything that is in order. -/
theorem Receipts.finishWith (h : Receipts actions w) {t : ℕ} {task : Task} {answers : List Answer}
    {action : Action} (haction : ∀ t' a, action = .capture t' a → t' = t)
    (hok : task.job.isBatch → AnswersOk (lastCapture t (actions ++ [action]))
      (w.setTask t (task.finishWith answers)) t task.job answers) :
    Receipts (actions ++ [action]) (w.setTask t (task.finishWith answers)) :=
  h.local (localStep_setTask done_leaves) haction hok

/-- A definite error is only given before anything was sent. -/
theorem Receipts.finishDefinite (h : Receipts actions w) (hinv : Inv cfg w) {t : ℕ} {task : Task}
    {e : WalError} {rs : List Request} {action : Action}
    (haction : ∀ t' a, action = .capture t' a → t' = t) (htask : w.tasks t = some task)
    (hearly : task.phase.early)
    (hstep : LocalStep w w' t (task.finishWith (definiteError task.job e)) rs)
    (hno : ∀ mode m o, Request.swap mode m (some o) ∉ rs) : Receipts (actions ++ [action]) w' := by
  have hidle := taskOk_idle hearly (hinv.tasks t task htask)
  exact h.local hstep haction fun hb => answersOk_definite hb (hstep.idle_self hidle hno)

/-- A claim loop moves on with the same attempt. -/
theorem Receipts.goto (h : Receipts actions w) {t : ℕ} {task : Task} {phase : Phase}
    {action : Action} (haction : ∀ t' a, action ≠ .capture t' a)
    (hleaves : ∀ a σ, phase ≠ .swapping a σ)
    (hset : task.job.isBatch → Settled (lastCapture t actions) w t (task.goto phase)) :
    Receipts (actions ++ [action]) (w.setTask t (task.goto phase)) := by
  refine h.local (localStep_setTask hleaves) (fun t' a ha => absurd ha (haction t' a)) fun hb => ?_
  rw [lastCapture_snoc (haction t)]
  exact Settled.frame (w := w) (fun o ho => ho) (fun o _ ho => ho) (hset hb)

theorem Receipts.probe (h : Receipts actions w) (hinv : Inv cfg w) {t : ℕ} {task : Task}
    {a : Attempt} {seq probes : ℕ} {burned : List (ℕ × ℕ)} {failure : Option String}
    (htask : w.tasks t = some task) (hphase : task.phase = .probing a seq burned probes)
    (hw' : w.probe cfg t task a seq burned probes = some w') :
    Receipts (actions ++ [.probe t failure]) w' := by
  have hidle := taskOk_idle (by rw [hphase]; rfl) (hinv.tasks t task htask)
  have hlast : task.job.isBatch → lastCapture t actions = some a :=
    fun hb => h.settled htask hphase hb
  simp only [World.probe, Option.bind_eq_bind, Option.bind_eq_some_iff] at hw'
  obtain ⟨m, -, hw'⟩ := hw'
  split_ifs at hw' <;> cases hw'
  · have hstep : LocalStep w (w.setTask t (task.retry cfg)) t (task.retry cfg) [] :=
      localStep_setTask (retry_leaves task)
    exact h.local hstep (by simp) fun hb => settled_retry (by simpa using hb)
      (hstep.idle_self hidle (by simp))
  · exact h.goto (by simp) (by simp) hlast

theorem Receipts.head (h : Receipts actions w) {t : ℕ} {task : Task} {a : Attempt}
    {seq probes : ℕ} {burned : List (ℕ × ℕ)} {failure : Option String}
    (htask : w.tasks t = some task) (hphase : task.phase = .heading a seq burned probes) :
    Receipts (actions ++ [.head t failure]) (w.head t task a seq burned probes) := by
  have hlast : task.job.isBatch → lastCapture t actions = some a :=
    fun hb => h.settled htask hphase hb
  unfold World.head
  split
  · exact h.goto (by simp) (by simp) hlast
  · simp only
    split_ifs
    · exact h.goto (by simp) (by simp) hlast
    · exact h.finishWith (by simp) answersOk_unknown
    · exact h.goto (by simp) (by simp) hlast

theorem Receipts.reread (h : Receipts actions w) {t : ℕ} {task : Task} {a : Attempt} {σ : Slot}
    {message : String} {failure : Option String} (htask : w.tasks t = some task)
    (hphase : task.phase = .rereading a σ message)
    (hw' : w.reread cfg t task a σ message = some w') :
    Receipts (actions ++ [.reread t failure]) w' := by
  have hsole : task.job.isBatch → lastCapture t actions = some a ∧ σ.task = t ∧
      Sole w t ⟨task.job, a, σ⟩ := fun hb => h.settled htask hphase hb
  simp only [World.reread, Option.bind_eq_bind, Option.bind_eq_some_iff] at hw'
  obtain ⟨m, -, hw'⟩ := hw'
  split_ifs at hw' <;> cases hw'
  · exact h.goto (by simp) (by simp) hsole
  · exact h.finishWith (by simp) answersOk_unknown

theorem Receipts.confirm (h : Receipts actions w) {t : ℕ} {task : Task} {a : Attempt} {σ : Slot}
    {m : Manifest} {v : ℕ} {message : String} {failure : Option String}
    (htask : w.tasks t = some task) (hphase : task.phase = .confirming a σ m v message) :
    Receipts (actions ++ [.confirm t failure]) (w.confirm t task a σ m v message) := by
  have hsole : task.job.isBatch → lastCapture t actions = some a ∧ σ.task = t ∧
      Sole w t ⟨task.job, a, σ⟩ := fun hb => h.settled htask hphase hb
  unfold World.confirm
  split_ifs
  · exact h.goto (by simp) (by simp) hsole
  · exact h.finishWith (by simp) answersOk_unknown

/-- The committed claim gives the answers. -/
theorem Receipts.finish (h : Receipts actions w) (hinv : Inv cfg w) {t : ℕ} {task : Task}
    {a : Attempt} {σ : Slot} {m : Manifest} {v : ℕ} (htask : w.tasks t = some task)
    (hphase : task.phase = .committed a σ m v) :
    Receipts (actions ++ [.finish t]) ((w.send (σ.burned.map fun b => .delete b.1 b.2)).setTask t
      (task.finishWith (committedAnswers task.job a σ))) := by
  have hok := hinv.tasks t task htask
  unfold TaskOk at hok
  rw [hphase] at hok
  have hstep : LocalStep w ((w.send (σ.burned.map fun b => .delete b.1 b.2)).setTask t
      (task.finishWith (committedAnswers task.job a σ))) t _
      (σ.burned.map fun b => .delete b.1 b.2) :=
    localStep_send done_leaves (by simp)
  refine h.local hstep (by simp) fun hb => ?_
  rw [lastCapture_snoc (by simp)]
  obtain ⟨hlast, howner, hsole⟩ := h.settled htask hphase hb
  obtain ⟨job, attempts, phase⟩ := task
  cases job with
  | batch reqs =>
    refine AnswersOk.committed a σ reqs rfl hlast hok howner ?_
    rintro o (ho | ⟨mode, m, hmem⟩) heq
    · exact hsole o (Or.inl ho) heq
    · refine hsole o (Or.inr ⟨mode, m, ?_⟩) heq
      simpa [World.send, World.setTask] using hmem
  | compact | control | sealPacks => cases hb

theorem Receipts.claim (h : Receipts actions w) {t : ℕ} {task : Task} {a : Attempt} {seq : ℕ}
    {burned : List (ℕ × ℕ)} {uuid : String} {clock : ℕ → Timestamp} {reply : Reply}
    (htask : w.tasks t = some task) (hphase : task.phase = .claiming a seq burned)
    (hw' : w.claim t task a seq burned uuid clock reply = some w') :
    Receipts (actions ++ [.claim t uuid clock reply]) w' := by
  have hlast : task.job.isBatch → lastCapture t actions = some a :=
    fun hb => h.settled htask hphase hb
  cases reply with
  | delivered =>
    simp only [World.claim] at hw'
    split_ifs at hw'
    split at hw'
    · cases hw'
    · split at hw' <;> cases hw'
      all_goals
        refine h.move (by simp) rfl (fun o ho => ho) (fun o _ ho => ho) fun hb => ?_
        rw [lastCapture_snoc (by simp)]
        exact hlast hb
  | lost message =>
    simp only [World.claim] at hw'
    split_ifs at hw'
    split at hw'
    · cases hw'
    · cases hw'
      refine h.move (by simp) rfl (fun o ho => ho) (fun o _ ho => ?_) answersOk_unknown
      rcases ho with ho | ⟨mode, m, hmem⟩
      · exact Or.inl ho
      · exact Or.inr ⟨mode, m, by simpa [World.send, World.setTask] using hmem⟩

theorem Receipts.swap (h : Receipts actions w) (hinv : Inv cfg w) {t : ℕ} {task : Task}
    {a : Attempt} {σ : Slot} {now : Timestamp} {reply : Reply} (htask : w.tasks t = some task)
    (hphase : task.phase = .swapping a σ)
    (hw' : w.swap cfg t task a σ now reply = some w') :
    Receipts (actions ++ [.swap t now reply]) w' := by
  have hlast : task.job.isBatch → lastCapture t actions = some a :=
    fun hb => h.settled htask hphase hb
  have hok := hinv.tasks t task htask
  unfold TaskOk at hok
  rw [hphase] at hok
  obtain ⟨hidle, hclaim, howner⟩ := hok
  rw [idle_iff] at hidle
  simp only [World.swap, Option.bind_eq_bind, Option.bind_eq_some_iff] at hw'
  obtain ⟨m, -, hw'⟩ := hw'
  cases reply with
  | delivered =>
    simp only at hw'
    split_ifs at hw' with hacc <;> cases hw'
    · -- Only this claim is new in the record.
      have hsent : ∀ o, Sent ((w.commit m (some ⟨task.job, a, σ⟩)).setTask t
          (task.goto (.committed a σ m w.store.next))) o → Sent w o ∨ o = ⟨task.job, a, σ⟩ := by
        rintro o (⟨g, hg, ho⟩ | hwire)
        · rcases List.mem_cons.mp hg with rfl | hg
          · exact Or.inr (Option.some.inj ho).symm
          · exact Or.inl (Or.inl ⟨g, hg, ho⟩)
        · exact Or.inl (Or.inr hwire)
      refine h.move (by simp) rfl ?_ ?_ fun hb => ⟨?_, howner, ?_⟩
      · rintro o ⟨g, hg, ho⟩
        exact ⟨g, List.mem_cons_of_mem _ hg, ho⟩
      · intro o hne ho
        refine (hsent o ho).resolve_right ?_
        rintro rfl
        exact hne howner
      · rw [lastCapture_snoc (by simp)]
        exact hlast hb
      · intro o ho heq
        exact (hsent o ho).resolve_left fun ho => hidle o ho heq
    · have hstep : LocalStep w ((w.send [.delete σ.firstSeq σ.version]).setTask t
          (task.retry cfg)) t (task.retry cfg) [.delete σ.firstSeq σ.version] :=
        localStep_send (retry_leaves task) (by simp)
      refine h.local hstep (by simp) fun hb => settled_retry (by simpa using hb) ?_
      exact hstep.idle_self (idle_iff.mpr hidle) (by simp)
  | lost message =>
    simp only at hw'
    have hsent : ∀ task' o, Sent ((w.send [.swap a.basis.putMode m
        (some ⟨task.job, a, σ⟩)]).setTask t task') o → Sent w o ∨ o = ⟨task.job, a, σ⟩ := by
      rintro task' o (ho | ⟨mode, m', hmem⟩)
      · exact Or.inl (Or.inl ho)
      · rcases List.mem_append.mp hmem with hmem | hmem
        · exact Or.inl (Or.inr ⟨mode, m', hmem⟩)
        · cases List.mem_singleton.mp hmem
          exact Or.inr rfl
    have hother : ∀ task' o, o.slot.task ≠ t → Sent ((w.send [.swap a.basis.putMode m
        (some ⟨task.job, a, σ⟩)]).setTask t task') o → Sent w o := by
      intro task' o hne ho
      refine (hsent task' o ho).resolve_right ?_
      rintro rfl
      exact hne howner
    split at hw'
    · rename_i c hjob
      cases hw'
      refine h.move (by simp) rfl (fun o ho => ho) (hother _) fun hb => ?_
      simp [Task.finishWith, hjob, Job.isBatch] at hb
    · cases hw'
      refine h.move (by simp) rfl (fun o ho => ho) (hother _) fun hb => ⟨?_, howner, ?_⟩
      · rw [lastCapture_snoc (by simp)]
        exact hlast hb
      · intro o ho heq
        exact (hsent _ o ho).resolve_left fun ho => hidle o ho heq

theorem Receipts.land (h : Receipts actions w) {r : Request} {ws : List Request} {action : Action}
    (haction : ∀ t a, action ≠ .capture t a) (hws : ∀ r ∈ ws, r ∈ w.wire)
    (hr : r ∈ w.wire ∨ ∀ mode m o, r ≠ .swap mode m (some o)) :
    Receipts (actions ++ [action]) ({ w with wire := ws }.land r) := by
  have hwire : ∀ o, (∃ mode m, Request.swap mode m (some o) ∈ ws) → Sent w o := by
    rintro o ⟨mode, m, hmem⟩
    exact Or.inr ⟨mode, m, hws _ hmem⟩
  rw [land_setWire]
  rcases land_gens w r with hgens | ⟨mode, m, origin, rfl, hgens⟩
  · refine h.world haction (land_tasks w r) (fun o ho => ?_) ?_
    · simpa only [Committed, hgens] using ho
    · rintro o (ho | ho)
      · exact Or.inl (by simpa only [Committed, hgens] using ho)
      · exact hwire o ho
  · refine h.world haction (land_tasks w _) ?_ ?_
    · rintro o ⟨g, hg, ho⟩
      exact ⟨g, by simp [hgens, hg], ho⟩
    · rintro o (⟨g, hg, ho⟩ | ho)
      · simp only [hgens, List.mem_cons] at hg
        rcases hg with rfl | hg
        · cases ho
          exact hr.elim (fun hr => Or.inr ⟨mode, m, hr⟩) fun hr => absurd rfl (hr mode m o)
        · exact Or.inl ⟨g, hg, ho⟩
      · exact hwire o ho

/-- Every step keeps the receipts in order. -/
theorem Receipts.step (h : Receipts actions w) (hinv : Inv cfg w) (action : Action)
    (hw' : step cfg w action = some w') : Receipts (actions ++ [action]) w' := by
  cases action with
  | start t job =>
    obtain ⟨-, rfl⟩ := step_start hw'
    exact h.local (localStep_setTask (by simp)) (by simp) fun _ => trivial
  | capture t a =>
    obtain ⟨task, htask, hphase, -, rfl⟩ := step_capture hw'
    have hidle : Idle w t := taskOk_idle (by rw [hphase]; rfl) (hinv.tasks t task htask)
    have hstep : LocalStep w (w.setTask t (captured task a)) t (captured task a) [] :=
      localStep_setTask (captured_leaves task a)
    refine h.local hstep (by simp) fun hb => ?_
    rw [lastCapture_capture]
    exact settled_captured (by simpa using hb) (hstep.idle_self hidle (by simp))
  | abort t message =>
    obtain ⟨task, htask, hphase, rfl⟩ := step_abort hw'
    exact h.finishDefinite hinv (by simp) htask (by rw [hphase]; rfl)
      (localStep_setTask done_leaves) (by simp)
  | claim t uuid clock reply =>
    obtain ⟨task, a, seq, burned, htask, hphase, hw'⟩ := step_claim hw'
    exact h.claim htask hphase hw'
  | probe t failure =>
    obtain ⟨task, a, seq, burned, probes, htask, hphase, hw' | ⟨e, rfl⟩⟩ := step_probe hw'
    · exact h.probe hinv htask hphase hw'
    · exact h.finishWith (by simp) answersOk_unknown
  | head t failure =>
    obtain ⟨task, a, seq, burned, probes, htask, hphase, rfl | ⟨e, rfl⟩⟩ := step_head hw'
    · exact h.head htask hphase
    · exact h.finishWith (by simp) answersOk_unknown
  | refuse t message dropSlot =>
    obtain ⟨task, htask, hphase, rfl | ⟨a, σ, hswap, rfl⟩⟩ := step_refuse hw'
    · exact h.finishDefinite hinv (by simp) htask (unsent_early hphase) (localStep_setTask done_leaves)
        (by simp)
    · exact h.finishDefinite hinv (by simp) htask (unsent_early hphase)
        (localStep_send done_leaves (by simp)) (by simp)
  | swap t now reply =>
    obtain ⟨task, a, σ, htask, hphase, hw'⟩ := step_swap hw'
    exact h.swap hinv htask hphase hw'
  | reread t failure =>
    obtain ⟨task, a, σ, message, htask, hphase, hw' | ⟨e, rfl⟩⟩ := step_reread hw'
    · exact h.reread htask hphase hw'
    · exact h.finishWith (by simp) answersOk_reread
  | confirm t failure =>
    obtain ⟨task, a, σ, m, v, message, htask, hphase, rfl | ⟨e, rfl⟩⟩ := step_confirm hw'
    · exact h.confirm htask hphase
    · exact h.finishWith (by simp) answersOk_reread
  | finish t =>
    obtain ⟨task, a, σ, m, v, htask, hphase, rfl⟩ := step_finish hw'
    exact h.finish hinv htask hphase
  | crash t =>
    obtain ⟨task, htask, -, rfl⟩ := step_crash hw'
    exact h.local (localStep_setTask (by simp [Task.goto])) (by simp) fun _ => trivial
  | rewrite job basis version policy writer now reply =>
    obtain ⟨m, -, -, rfl | rfl⟩ := step_rewrite hw'
    · exact h.land (by simp) (fun r (hr : r ∈ w.wire) => hr) (Or.inr (by simp))
    · refine h.world (by simp) rfl (fun o ho => ho) ?_
      rintro o (ho | ⟨mode, m', hmem⟩)
      · exact Or.inl ho
      · exact Or.inr ⟨mode, m', by simpa [World.send] using hmem⟩
  | land k =>
    obtain ⟨r, hr, rfl⟩ := step_land hw'
    exact h.land (by simp) (fun r' hr' => List.mem_of_mem_eraseIdx hr') (Or.inl hr)
  | lose k =>
    obtain rfl := step_lose hw'
    refine h.world (by simp) rfl (fun o ho => ho) ?_
    rintro o (ho | ⟨mode, m, hmem⟩)
    · exact Or.inl ho
    · exact Or.inr ⟨mode, m, List.mem_of_mem_eraseIdx hmem⟩

/-- Receipts are in order along every run. -/
theorem receipts_run {access : Option RepoAccess} {now : Timestamp} {writer : String}
    (hrun : Runs.run (step cfg) (World.created (createdManifest access now writer)) actions =
      some w) : Inv cfg w ∧ Receipts actions w := by
  refine Runs.run_induction (P := fun actions w => Inv cfg w ∧ Receipts actions w)
    ⟨inv_created access now writer, ?_⟩ ?_ hrun
  · intro t task ht
    cases ht
  · rintro actions w action w' ⟨hinv, hrec⟩ hstep
    exact ⟨hinv.step action hstep, hrec.step hinv action hstep⟩

end Steps

end Walgit
