import Walgit.Attempts
import Walgit.ClusterSteps
import Walgit.Handlers

/-!
# A server's requests

The ref-writing handlers over the whole system. A request is let in by the access record its
handle holds, makes what it submits later, and is committed as a member of some batch; anything
may run in between.
-/
namespace Walgit

inductive Handler where
  | receivePack
  | merge
  | deleteBranch
  deriving DecidableEq, Repr

/-- What a handler asks the publisher for, with the policy it loaded. -/
structure Submission where
  handler : Handler
  policy : RepoPolicy
  request : PublishRequest

/-- A user's request that was let in. -/
structure Session where
  handle : ℕ
  grant : Grant
  /-- The manifest whose access record let it in. -/
  checked : Manifest
  submission : Option Submission

/-- A member of a batch: a user's session, or none for the host's own imports and follows. -/
structure Member where
  session : Option ℕ
  request : PublishRequest

structure Server where
  cluster : Cluster
  sessions : ℕ → Option Session
  /-- The sessions of the requests that a publisher's task was started with. -/
  senders : ℕ → List (Option ℕ)
  sent : List ℕ

inductive Event where
  | deed (d : Deed)
  | authorize (k h : ℕ) (subject : Subject) (anonymousRead : Bool) (owns : Except ApiError Bool)
  | receivePack (k : ℕ) (policy : RepoPolicy) (unknown : List (String × String))
      (lines : List PktLine) (pack : Option IngestedPack) (agent : String)
      (requestId : Option String)
  | merge (k : ℕ) (policy : RepoPolicy) (number : ℕ) (method sha : Option String)
      (built : Handlers.BuiltMerge)
  | deleteBranch (k : ℕ) (policy : RepoPolicy) (number : ℕ)
  | submit (h t : ℕ) (members : List Member)

/-- What an event does to the cluster. -/
def Event.deeds : Event → List Deed
  | .deed d => [d]
  | .submit h t members => [.start h t (.batch (members.map Member.request))]
  | _ => []

/-- Batches are made of members. -/
def Deed.startsBatch : Deed → Bool
  | .start _ _ job => job.isBatch
  | _ => false

/-- What `is_ancestor` answers; a commit it cannot read is no ancestor. -/
def ancestry (forward : String → String → Bool) (unknown : List (String × String))
    (old new : String) : Bool :=
  forward old new && !unknown.contains (old, new)

/-- The event makes a submission of this session, which has the grant. -/
inductive Event.Makes [Text.CharTables] (forward : String → String → Bool) (k : ℕ) (g : Grant) :
    Event → Submission → Prop
  | receivePack (policy unknown seen lines pack agent requestId request)
      (h : Handlers.receivePack g policy (ancestry forward unknown) seen lines pack agent
        requestId = some request) :
      Makes forward k g (.receivePack k policy unknown lines pack agent requestId)
        ⟨.receivePack, policy, request⟩
  | merge (policy forge refs number method sha built request)
      (h : Handlers.merge g policy forge refs number method sha built = .ok request) :
      Makes forward k g (.merge k policy number method sha built) ⟨.merge, policy, request⟩
  | deleteBranch (policy forge refs number request)
      (h : Handlers.deleteBranch g policy forge refs number = .ok request) :
      Makes forward k g (.deleteBranch k policy number) ⟨.deleteBranch, policy, request⟩

/-- A submission its handler makes for a grant. -/
def Submission.Made [Text.CharTables] (forward : String → String → Bool) (g : Grant)
    (sub : Submission) : Prop := ∃ k e, Event.Makes forward k g e sub

namespace Server

/-- A repository just created, with no request yet. -/
def created (m : Manifest) : Server := ⟨.created m, fun _ => none, fun _ => [], []⟩

variable (s : Server)

/-- The session's request is ready. -/
def queue (k : ℕ) (session : Session) (sub : Submission) : Server :=
  let session := { session with submission := some sub }
  { s with sessions := Function.update s.sessions k (some session) }

/-- What a session submitted and did not send yet. -/
def queued (h : ℕ) (m : Member) : Bool :=
  m.session.all fun k => k ∉ s.sent &&
    (s.sessions k).any fun session => session.handle = h &&
      session.submission.any fun sub => sub.request = m.request

section Step

variable [Text.CharTables] (cfg : Config) (id : RepoId) (forward : String → String → Bool)

/-- One step of the server; `none` when it is not enabled. -/
def step (s : Server) : Event → Option Server
  | .deed d =>
    if d.startsBatch then none
    else (Cluster.step cfg s.cluster d).map fun c => { s with cluster := c }
  | .authorize k h subject anonymousRead owns => do
    let handle ← s.cluster.handles h
    match s.sessions k, authorize id handle.manifest.access anonymousRead subject .write owns with
    | none, .ok g => some { s with
        sessions := Function.update s.sessions k (some ⟨h, g, handle.manifest, none⟩) }
    | _, _ => none
  | .receivePack k policy unknown lines pack agent requestId => do
    let session ← s.sessions k
    let c ← s.cluster.copy session.handle
    if session.submission.isSome then none
    else
      let request ← Handlers.receivePack session.grant policy (ancestry forward unknown)
        c.disk.refs lines pack agent requestId
      some (s.queue k session ⟨.receivePack, policy, request⟩)
  | .merge k policy number method sha built => do
    let session ← s.sessions k
    let c ← s.cluster.copy session.handle
    let forge ← c.handle.forge
    if session.submission.isSome then none
    else match Handlers.merge session.grant policy forge c.disk.refs number method sha built with
      | .ok request => some (s.queue k session ⟨.merge, policy, request⟩)
      | .error _ => none
  | .deleteBranch k policy number => do
    let session ← s.sessions k
    let c ← s.cluster.copy session.handle
    let forge ← c.handle.forge
    if session.submission.isSome then none
    else match Handlers.deleteBranch session.grant policy forge c.disk.refs number with
      | .ok request => some (s.queue k session ⟨.deleteBranch, policy, request⟩)
      | .error _ => none
  | .submit h t members => do
    let senders := members.map Member.session
    if !members.all (s.queued h) || !senders.reduceOption.Nodup then none
    else
      let c ← Cluster.step cfg s.cluster (.start h t (.batch (members.map Member.request)))
      some { s with
        cluster := c
        senders := Function.update s.senders t senders
        sent := senders.reduceOption ++ s.sent }

end Step

section Steps

variable [Text.CharTables] {cfg : Config} {id : RepoId} {forward : String → String → Bool}
  {s s' : Server}

/-- A step is one of the cluster, lets a request in, makes its submission, or starts a batch. -/
theorem step_cases {e : Event} (h : step cfg id forward s e = some s') :
    (∃ d c, e = .deed d ∧ d.startsBatch = false ∧ Cluster.step cfg s.cluster d = some c ∧
      s' = { s with cluster := c }) ∨
    (∃ k session, s.sessions k = none ∧ session.submission = none ∧
      session.grant.mayWrite session.checked.access ∧
      s' = { s with sessions := Function.update s.sessions k (some session) }) ∨
    (∃ k session sub, s.sessions k = some session ∧ session.submission = none ∧
      Event.Makes forward k session.grant e sub ∧ s' = s.queue k session sub) ∨
    (∃ h t members c, e = .submit h t members ∧ (∀ m ∈ members, s.queued h m) ∧
      Cluster.step cfg s.cluster (.start h t (.batch (members.map Member.request))) = some c ∧
      s' = { s with
        cluster := c
        senders := Function.update s.senders t (members.map Member.session)
        sent := (members.map Member.session).reduceOption ++ s.sent }) := by
  cases e with
  | deed d =>
    simp only [step] at h
    split_ifs at h with hstart
    obtain ⟨c, hc, rfl⟩ := Option.map_eq_some_iff.mp h
    exact Or.inl ⟨d, c, rfl, by simpa using hstart, hc, rfl⟩
  | authorize k i subject anonymousRead owns =>
    simp only [step, Option.bind_eq_bind, Option.bind_eq_some_iff] at h
    obtain ⟨handle, -, h⟩ := h
    split at h <;> cases h
    rename_i g hnone hok
    obtain ⟨hsubject, hrole, -⟩ := authorize_ok hok
    refine Or.inr (Or.inl ⟨k, _, hnone, rfl, ?_, rfl⟩)
    rw [← hsubject] at hrole
    exact write_le_role.mpr (write_le_role.mp hrole)
  | receivePack k policy unknown lines pack agent requestId =>
    simp only [step, Option.bind_eq_bind, Option.bind_eq_some_iff] at h
    obtain ⟨session, hsession, c, -, h⟩ := h
    split_ifs at h with hnone
    obtain ⟨request, hmade, h⟩ := Option.bind_eq_some_iff.mp h
    cases h
    exact Or.inr (Or.inr (Or.inl ⟨k, session, _, hsession, by simpa using hnone,
      .receivePack _ _ _ _ _ _ _ _ hmade, rfl⟩))
  | merge k policy number method sha built =>
    simp only [step, Option.bind_eq_bind, Option.bind_eq_some_iff] at h
    obtain ⟨session, hsession, c, -, forge, -, h⟩ := h
    split_ifs at h with hnone
    split at h <;> cases h
    rename_i request hmade
    exact Or.inr (Or.inr (Or.inl ⟨k, session, _, hsession, by simpa using hnone,
      .merge _ _ _ _ _ _ _ _ hmade, rfl⟩))
  | deleteBranch k policy number =>
    simp only [step, Option.bind_eq_bind, Option.bind_eq_some_iff] at h
    obtain ⟨session, hsession, c, -, forge, -, h⟩ := h
    split_ifs at h with hnone
    split at h <;> cases h
    rename_i request hmade
    exact Or.inr (Or.inr (Or.inl ⟨k, session, _, hsession, by simpa using hnone,
      .deleteBranch _ _ _ _ _ hmade, rfl⟩))
  | submit i t members =>
    simp only [step] at h
    split_ifs at h with hguard
    obtain ⟨c, hc, h⟩ := Option.bind_eq_some_iff.mp h
    cases h
    simp only [Bool.or_eq_true, Bool.not_eq_true', not_or, Bool.not_eq_false,
      List.all_eq_true] at hguard
    exact Or.inr (Or.inr (Or.inr ⟨i, t, members, c, rfl, hguard.1, hc, rfl⟩))

/-- The members of a batch are what its senders submitted. -/
def Carries (s : Server) (t : ℕ) (job : Job) : Prop :=
  ∀ reqs, job = .batch reqs → List.Forall₂ (fun sender request => ∀ k ∈ sender,
    ∃ session sub, s.sessions k = some session ∧ session.submission = some sub ∧
      sub.request = request) (s.senders t) reqs

/-- Sessions were let in and submit what their handler makes, and batches carry that. -/
structure Traced (cfg : Config) (forward : String → String → Bool) (s : Server) : Prop where
  inv : Inv cfg s.cluster.world
  granted : ∀ k session, s.sessions k = some session →
    session.grant.mayWrite session.checked.access
  made : ∀ k session sub, s.sessions k = some session → session.submission = some sub →
    sub.Made forward session.grant
  sends : ∀ t k, some k ∈ s.senders t →
    ∃ session, s.sessions k = some session ∧ session.submission.isSome
  tasks : ∀ t task, s.cluster.world.tasks t = some task → s.Carries t task.job
  claims : ∀ o ∈ s.cluster.world.claims, s.Carries o.slot.task o.job

omit [Text.CharTables] in
theorem queued_some {i : ℕ} {m : Member} (h : s.queued i m) : ∀ k ∈ m.session,
    ∃ session sub, s.sessions k = some session ∧ session.submission = some sub ∧
      sub.request = m.request := by
  intro k hk
  rw [Option.mem_def] at hk
  simp only [queued, hk, Option.all_some, Bool.and_eq_true, Option.any_eq_true,
    decide_eq_true_eq] at h
  obtain ⟨-, session, hsession, -, sub, hsub, hrequest⟩ := h
  exact ⟨session, sub, hsession, hsub, hrequest⟩

omit [Text.CharTables] in
/-- A batch goes on carrying what its senders submitted. -/
theorem Carries.mono {t : ℕ} {job : Job} (h : s.Carries t job)
    (hsenders : s'.senders t = s.senders t)
    (hsessions : ∀ k session, s.sessions k = some session → session.submission.isSome →
      s'.sessions k = some session) : s'.Carries t job := by
  intro reqs hjob
  rw [hsenders]
  refine (h reqs hjob).imp fun sender request hsent k hk => ?_
  obtain ⟨session, sub, hsession, hsub, hrequest⟩ := hsent k hk
  exact ⟨session, sub, hsessions k session hsession (by simp [hsub]), hsub, hrequest⟩

/-- Sessions that submitted stay as they are. -/
theorem step_sessions {e : Event} (h : step cfg id forward s e = some s') {k : ℕ}
    {session : Session} (hsession : s.sessions k = some session)
    (hsub : session.submission.isSome) : s'.sessions k = some session := by
  rcases step_cases h with ⟨d, c, -, -, -, rfl⟩ | ⟨k', session', hnone, -, -, rfl⟩ |
    ⟨k', session', sub, hold, hnone, -, rfl⟩ | ⟨i, t, members, c, -, -, -, rfl⟩
  · exact hsession
  · have hne : k ≠ k' := by
      rintro rfl
      rw [hnone] at hsession
      cases hsession
    simpa only [Function.update_of_ne hne] using hsession
  · have hne : k ≠ k' := by
      rintro rfl
      rw [hold] at hsession
      cases hsession
      rw [hnone] at hsub
      cases hsub
    simpa only [queue, Function.update_of_ne hne] using hsession
  · exact hsession

theorem Traced.step (h : Traced cfg forward s) {e : Event}
    (hstep : step cfg id forward s e = some s') : Traced cfg forward s' := by
  have hkeep : ∀ k session, s.sessions k = some session → session.submission.isSome →
      s'.sessions k = some session := fun k session => step_sessions hstep
  have hsends : ∀ t k, some k ∈ s.senders t →
      ∃ session, s'.sessions k = some session ∧ session.submission.isSome := by
    intro t k hk
    obtain ⟨session, hsession, hsub⟩ := h.sends t k hk
    exact ⟨session, hkeep k session hsession hsub, hsub⟩
  rcases step_cases hstep with ⟨d, c, -, hbatch, hc, rfl⟩ | ⟨k, session, hnone, hnew, hgrant, rfl⟩ |
    ⟨k, session, sub, hold, hnone, hmade, rfl⟩ | ⟨i, t, members, c, -, hqueued, hc, rfl⟩
  · rcases Cluster.step_world hc with heq | ⟨a, hw, -, hstart, -⟩
    · refine ⟨heq ▸ h.inv, h.granted, h.made, hsends, ?_, ?_⟩
      · exact fun t task htask => h.tasks t task (heq ▸ htask)
      · exact fun o ho => h.claims o (heq ▸ ho)
    · refine ⟨h.inv.step a hw, h.granted, h.made, hsends, fun t task htask => ?_,
        fun o ho => ?_⟩
      · rcases step_jobs hw htask with rfl | ⟨task₀, htask₀, hjob⟩
        · obtain ⟨i, rfl⟩ := hstart t task.job rfl
          intro reqs hjob
          rw [Deed.startsBatch, hjob] at hbatch
          cases hbatch
        · exact hjob ▸ h.tasks t task₀ htask₀
      · rcases step_claims hw ho with ho | ⟨task, htask, hjob, -⟩
        · exact h.claims o ho
        · exact hjob ▸ h.tasks _ task htask
  · refine ⟨h.inv, fun k' session' hsession => ?_, fun k' session' sub hsession hsub => ?_, hsends,
      fun t task htask => (h.tasks t task htask).mono rfl hkeep,
      fun o ho => (h.claims o ho).mono rfl hkeep⟩
    · simp only [Function.update_apply] at hsession
      split_ifs at hsession
      · cases hsession
        exact hgrant
      · exact h.granted k' session' hsession
    · simp only [Function.update_apply] at hsession
      split_ifs at hsession
      · cases hsession
        rw [hnew] at hsub
        cases hsub
      · exact h.made k' session' sub hsession hsub
  · refine ⟨h.inv, fun k' session' hsession => ?_, fun k' session' sub' hsession hsub => ?_, hsends,
      fun t task htask => (h.tasks t task htask).mono rfl hkeep,
      fun o ho => (h.claims o ho).mono rfl hkeep⟩
    · simp only [queue, Function.update_apply] at hsession
      split_ifs at hsession
      · cases hsession
        exact h.granted k session hold
      · exact h.granted k' session' hsession
    · simp only [queue, Function.update_apply] at hsession
      split_ifs at hsession
      · cases hsession
        cases hsub
        exact ⟨k, e, hmade⟩
      · exact h.made k' session' sub' hsession hsub
  · obtain ⟨handle, w, -, hw, rfl⟩ := Cluster.step_start hc
    obtain ⟨hfresh, -⟩ := Walgit.step_start hw
    refine ⟨h.inv.step _ hw, h.granted, h.made, fun t' k hk => ?_, fun t' task htask => ?_,
      fun o ho => ?_⟩
    · simp only [Function.update_apply] at hk
      split_ifs at hk
      · obtain ⟨m, hm, hsession⟩ := List.mem_map.mp hk
        obtain ⟨session, sub, hold, hsub, -⟩ := queued_some (hqueued m hm) k hsession
        exact ⟨session, hold, by simp [hsub]⟩
      · exact hsends t' k hk
    · rcases step_jobs hw htask with heq | ⟨task₀, htask₀, hjob⟩
      · injection heq with ht hmembers
        subst ht
        intro reqs hjob
        rw [← hmembers] at hjob
        cases hjob
        simp only [Function.update_self, List.forall₂_map_left_iff, List.forall₂_map_right_iff]
        exact List.forall₂_same.mpr fun m hm => queued_some (hqueued m hm)
      · have hne : t' ≠ t := by
          rintro rfl
          rw [hfresh] at htask₀
          cases htask₀
        exact hjob ▸ (h.tasks t' task₀ htask₀).mono (Function.update_of_ne hne _ _) hkeep
    · have hne : ∀ {t'}, (s.cluster.world.tasks t').isSome → t' ≠ t := by
        rintro t' hsome rfl
        rw [hfresh] at hsome
        cases hsome
      rcases step_claims hw ho with ho | ⟨task, htask, hjob, -⟩
      · have hother := hne (h.inv.claims o ho).owner
        exact (h.claims o ho).mono (Function.update_of_ne hother _ _) hkeep
      · have hother := hne (Option.isSome_iff_exists.mpr ⟨task, htask⟩)
        exact hjob ▸ (h.tasks _ task htask).mono (Function.update_of_ne hother _ _) hkeep

theorem traced_created (access : Option RepoAccess) (now : Timestamp) (writer : String) :
    Traced cfg forward (created (createdManifest access now writer)) where
  inv := inv_created access now writer
  granted := by simp [created]
  made := by simp [created]
  sends := by simp [created]
  tasks := by simp [created, Cluster.created, World.created]
  claims := by simp [created, Cluster.created, World.created]

theorem traced_run {access : Option RepoAccess} {now : Timestamp} {writer : String}
    {events : List Event} (hrun : Runs.run (step cfg id forward)
      (created (createdManifest access now writer)) events = some s) : Traced cfg forward s :=
  Runs.invariant (fun _ _ _ h _ hstep => h.step hstep) hrun (Runs.allSteps_true _ _)
    (traced_created access now writer)

/-- A transaction of a claim is that of a member judged valid; a user's member was submitted. -/
theorem Traced.sender (h : Traced cfg forward s) {o : Origin} (ho : o ∈ s.cluster.world.claims)
    {e : LogEntry} (he : e ∈ o.slot.bytes) {t : RefTransaction} (htxn : e.txn = some t) :
    ∃ i sender request work, (s.senders o.slot.task)[i]? = some sender ∧
      o.entryOf i = some e ∧ (judge o.attempt.basis work request).1.valid ∧ request.txn = t ∧
      ∀ k ∈ sender, ∃ session sub, s.sessions k = some session ∧ session.submission = some sub ∧
        sub.request = request := by
  have hwrote := (h.inv.claims o ho).wrote
  obtain ⟨reqs, i, request, hjob, hreq, hentry⟩ :=
    Origin.requested hwrote he (Or.inl (by simp [htxn]))
  obtain ⟨work, hvalid, -, htxn'⟩ := Origin.entryOf_judged hwrote hjob hreq hentry
  have hcarries := List.forall₂_iff_get.mp (h.claims o ho reqs hjob)
  obtain ⟨hlt, hget⟩ := List.getElem?_eq_some_iff.mp hreq
  have hlt' : i < (s.senders o.slot.task).length := hcarries.1 ▸ hlt
  refine ⟨i, _, request, work, List.getElem?_eq_getElem hlt', hentry, hvalid, ?_, fun k hk => ?_⟩
  · rw [htxn] at htxn'
    split_ifs at htxn'
    exact (Option.some.inj htxn').symm
  · obtain ⟨session, sub, hsession, hsub, hrequest⟩ := hcarries.2 i hlt' hlt k hk
    exact ⟨session, sub, hsession, hsub, hrequest.trans hget⟩

end Steps

end Server

end Walgit
