import Mathlib.Data.List.ReduceOption
import Walgit.Server

/-!
# Judged again at commit

The publisher judges a user's role again in the access record it captured, if the request carries
an actor. A push and a merge carry one on every path; the deletion of a branch carries none.
-/
namespace Walgit

open Text

/-- A user's request that is no deletion of a branch carries the user. -/
theorem Submission.Made.actor [CharTables] {forward : String → String → Bool} {g : Grant}
    {sub : Submission} (h : sub.Made forward g) (hhandler : sub.handler ≠ .deleteBranch) :
    sub.request.actor = some g.actor := by
  obtain ⟨k, e, h⟩ := h
  cases h with
  | receivePack policy unknown seen lines pack agent requestId request h =>
    obtain ⟨_, -, -, -, hactor⟩ := Handlers.receivePack_some h
    exact hactor
  | merge policy forge refs number method sha built request h =>
    obtain ⟨_, _, _, -, hactor⟩ := Handlers.merge_ok h
    exact hactor
  | deleteBranch policy forge refs number request h => exact absurd rfl hhandler

namespace Server

/-- Every deletion of a branch that the task carries satisfies the test. -/
def deletions (s : Server) (t : ℕ) (test : Session → Bool) : Bool :=
  (s.senders t).reduceOption.all fun k => (s.sessions k).all fun session =>
    session.submission.all fun sub => sub.handler ≠ .deleteBranch || test session

theorem deletions_iff {s : Server} {t : ℕ} {test : Session → Bool} : s.deletions t test ↔
    ∀ k session sub, some k ∈ s.senders t → s.sessions k = some session →
      session.submission = some sub → sub.handler = .deleteBranch → test session := by
  simp only [deletions, List.all_eq_true, List.reduceOption_mem_iff, Option.all_eq_true,
    Bool.or_eq_true, decide_eq_true_eq, ne_eq, ← imp_iff_not_or]
  exact ⟨fun h k session sub hk hs hsub => h k hk session hs sub hsub,
    fun h k hk session hs sub hsub => h k session sub hk hs hsub⟩

/-- No access edit takes Write from the user of a deletion after its handler's check and before
the manifest it is committed onto is captured. -/
def keepsWriters (s : Server) : Event → Bool
  | .deed (.capture t _ _ _ _) => (s.cluster.pins t).all fun p => s.deletions t fun session =>
      !session.grant.mayWrite session.checked.access || session.grant.mayWrite p.manifest.access
  | _ => true

section Runs

variable [CharTables] {cfg : Config} {id : RepoId} {forward : String → String → Bool}
  {s s' : Server}

/-- The users of the deletions that a task carries may write under this record. -/
def Permits (s : Server) (t : ℕ) (access : Option RepoAccess) : Prop :=
  s.deletions t fun session => session.grant.mayWrite access

/-- The records that attempts and claims of deletions captured let their users write. -/
structure Permitted (s : Server) : Prop where
  tasks : ∀ t task a, s.cluster.world.tasks t = some task → task.phase.attempt = some a →
    s.Permits t a.basis.manifest.access
  claims : ∀ o ∈ s.cluster.world.claims, s.Permits o.slot.task o.attempt.basis.manifest.access

omit [CharTables] in
theorem Permits.of_sessions {t : ℕ} {access : Option RepoAccess} (h : s.Permits t access)
    (hsenders : s'.senders t = s.senders t)
    (hsessions : ∀ k, some k ∈ s.senders t → s'.sessions k = s.sessions k) :
    s'.Permits t access := by
  refine deletions_iff.mpr fun k session sub hk hsession => ?_
  rw [hsenders] at hk
  rw [hsessions k hk] at hsession
  exact deletions_iff.mp h k session sub hk hsession

theorem Permitted.step (htraced : Traced cfg forward s) (h : Permitted s) {e : Event}
    (hkeeps : s.keepsWriters e) (hstep : step cfg id forward s e = some s') : Permitted s' := by
  have hsessions : ∀ t k, some k ∈ s.senders t → s'.sessions k = s.sessions k := by
    intro t k hk
    obtain ⟨session, hsession, hsub⟩ := htraced.sends t k hk
    rw [hsession, step_sessions hstep hsession hsub]
  rcases step_cases hstep with ⟨d, c, rfl, -, hc, rfl⟩ | ⟨k, session, -, -, -, rfl⟩ |
    ⟨k, session, sub, -, -, -, rfl⟩ | ⟨i, t, members, c, -, -, hc, rfl⟩
  · rcases Cluster.step_world hc with heq | ⟨a, hw, hcapture, -⟩
    · refine ⟨fun t task a htask => ?_, fun o ho => ?_⟩
      · exact h.tasks t task a (heq ▸ htask)
      · exact h.claims o (heq ▸ ho)
    · refine ⟨fun t task b htask hb => ?_, fun o ho => ?_⟩
      · rcases step_attempts hw htask hb with ⟨task₀, htask₀, -, hb₀⟩ | ⟨rfl, -⟩
        · exact h.tasks t task₀ b htask₀ hb₀
        · obtain ⟨policy, writer, startedAt, last, p, rfl, hp, hbasis, -⟩ := hcapture t b rfl
          refine deletions_iff.mpr fun k session sub hk hsession hsub hdelete => ?_
          simp only [keepsWriters, hp, Option.all_some] at hkeeps
          have hkept := deletions_iff.mp hkeeps k session sub hk hsession hsub hdelete
          have hgranted := htraced.granted k session hsession
          rw [hbasis]
          simpa [hgranted] using hkept
      · rcases step_claims hw ho with ho | ⟨task, htask, -, hb⟩
        · exact h.claims o ho
        · exact h.tasks _ task o.attempt htask hb
  · exact ⟨fun t task a htask ha => (h.tasks t task a htask ha).of_sessions rfl (hsessions t),
      fun o ho => (h.claims o ho).of_sessions rfl (hsessions _)⟩
  · exact ⟨fun t task a htask ha => (h.tasks t task a htask ha).of_sessions rfl (hsessions t),
      fun o ho => (h.claims o ho).of_sessions rfl (hsessions _)⟩
  · obtain ⟨handle, w, -, hw, rfl⟩ := Cluster.step_start hc
    obtain ⟨hfresh, -⟩ := Walgit.step_start hw
    have hsenders : ∀ {t'}, (s.cluster.world.tasks t').isSome →
        Function.update s.senders t (members.map Member.session) t' = s.senders t' := by
      intro t' hsome
      refine Function.update_of_ne ?_ _ _
      rintro rfl
      rw [hfresh] at hsome
      cases hsome
    refine ⟨fun t' task a htask ha => ?_, fun o ho => ?_⟩
    · rcases step_attempts hw htask ha with ⟨task₀, htask₀, -, ha₀⟩ | ⟨heq, -⟩
      · have hold := hsenders (Option.isSome_iff_exists.mpr ⟨task₀, htask₀⟩)
        exact (h.tasks t' task₀ a htask₀ ha₀).of_sessions hold (hsessions t')
      · cases heq
    · rcases step_claims hw ho with ho | ⟨task, htask, -, ha⟩
      · have hold := hsenders (htraced.inv.claims o ho).owner
        exact (h.claims o ho).of_sessions hold (hsessions _)
      · have hold := hsenders (Option.isSome_iff_exists.mpr ⟨task, htask⟩)
        exact (h.tasks _ task o.attempt htask ha).of_sessions hold (hsessions _)

/-- Whatever runs beside it, a ref update of a user is committed onto a manifest whose access
record lets the user write; for the deletion of a branch, if no access edit in between takes
Write away. -/
theorem user_updates_permitted {access : Option RepoAccess} {now : Timestamp} {writer : String}
    {events : List Event} (hkeeps : Runs.AllSteps (step cfg id forward)
      (fun s e => s.keepsWriters e = true) (created (createdManifest access now writer)) events)
    (hrun : Runs.run (step cfg id forward) (created (createdManifest access now writer)) events =
      some s) {newer older : List Generation} {g' g : Generation}
    (hgens : s.cluster.world.gens = newer ++ g' :: g :: older) {o : Origin}
    (ho : g'.origin = some o) {e : LogEntry} (he : e ∈ o.slot.bytes) {t : RefTransaction}
    (htxn : e.txn = some t) (hupdates : t.updates ≠ []) :
    ∃ i sender, (s.senders o.slot.task)[i]? = some sender ∧ o.entryOf i = some e ∧
      ∀ k ∈ sender, ∃ session sub, s.sessions k = some session ∧
        session.submission = some sub ∧ sub.request.txn = t ∧
        session.grant.mayWrite g.manifest.access := by
  obtain ⟨htraced, hpermitted⟩ : Traced cfg forward s ∧ Permitted s := by
    refine Runs.invariant (I := fun s => Traced cfg forward s ∧ Permitted s)
      (fun s e s' h hok hstep => ⟨h.1.step hstep, h.2.step h.1 hok hstep⟩) hrun hkeeps
      ⟨traced_created access now writer, ?_, ?_⟩
    · simp [created, Cluster.created, World.created]
    · simp [created, Cluster.created, World.created]
  have hsuffix : (g' :: g :: older) <:+ s.cluster.world.gens := ⟨newer, hgens.symm⟩
  have hbasis := (htraced.inv.chain.suffix hsuffix).basis ho
  have hclaim : o ∈ s.cluster.world.claims :=
    htraced.inv.claimed o ⟨g', hsuffix.subset List.mem_cons_self, ho⟩
  obtain ⟨i, sender, request, work, hsender, hentry, hvalid, rfl, hsent⟩ :=
    htraced.sender hclaim he htxn
  refine ⟨i, sender, hsender, hentry, fun k hk => ?_⟩
  obtain ⟨session, sub, hsession, hsub, rfl⟩ := hsent k hk
  refine ⟨session, sub, hsession, hsub, rfl, ?_⟩
  rw [← hbasis]
  by_cases hdelete : sub.handler = .deleteBranch
  · have hmem : some k ∈ s.senders o.slot.task := by
      rw [Option.mem_def] at hk
      exact hk ▸ List.mem_of_getElem? hsender
    have htest := deletions_iff.mp (hpermitted.claims o hclaim) k session sub hmem hsession hsub
    simpa using htest hdelete
  · have hactor := (htraced.made k session sub hsession hsub).actor hdelete
    exact Grant.mayWrite_of_actor ((judge_permitted hvalid).1 _ hactor hupdates)

end Runs

section Deletion

attribute [local instance] asciiTables

/-- What a publisher does with the task it started, when nothing fails. -/
def committing (t : ℕ) (nonce : String) : List Event :=
  [.deed (.pin t), .deed (.capture t ⟨"", .empty⟩ "w" ⟨2, 0⟩ none),
    .deed (.store (.claim t nonce (fun _ => ⟨2, 0⟩) .delivered)),
    .deed (.store (.swap t ⟨3, 0⟩ .delivered)), .deed (.settle t none),
    .deed (.finish t fun _ => ⟨2, 0⟩)]

def root : Actor := ⟨"root", "u0", true⟩

def dev : Subject := ⟨"dev", some "u1", "", false, false⟩

def pushed (updates : List RefUpdate) : PublishRequest :=
  { txn := ⟨updates, [], false⟩
    metadata := .ofList [("agent", ""), ("principal", "dev"), ("push_options", "")]
    synced := true
    actor := some ⟨"dev", "u1", false⟩ }

def command (old new name : String) : PktLine :=
  .data (repeated (old.toList.headD '0') ++ " " ++ repeated (new.toList.headD '0') ++ " " ++ name)

/-- A collaborator is let in and pushes these commands, which become this request. -/
def pushing (policy : RepoPolicy) (t : ℕ) (lines : List PktLine) (request : PublishRequest) :
    List Event :=
  [.authorize 5 0 dev false (.ok false), .receivePack 5 policy [] lines none "" none,
    .submit 0 t [⟨some 5, request⟩]]

/-- The host opens a pull request of a branch and closes it; a collaborator is let in and asks for
the deletion of the branch. -/
def closedPull : List Event :=
  let opened : ForgeEvent :=
    ⟨0, "root", "u0", some (.opened ⟨.pull, "topic", "", [], [], "main", "topic", "", "", false⟩)⟩
  let closed : ForgeEvent := ⟨1, "root", "u0", some (.state ⟨true, "completed", "", ""⟩)⟩
  let first : PublishRequest :=
    { txn := Handlers.single "refs/heads/topic" "" (repeated 'a')
      forge := [opened]
      actor := some root }
  [.deed (.openRepo 0 none), .deed (.forgeEnsure 0), .submit 0 1 [⟨none, first⟩]] ++
    committing 1 "a" ++ [.submit 0 2 [⟨none, { forge := [closed], actor := some root }⟩]] ++
    committing 2 "b" ++ [.authorize 5 0 dev false (.ok false), .deleteBranch 5 {} 1]

def deletion : List Event :=
  let request : PublishRequest :=
    { txn := Handlers.single "refs/heads/topic" (repeated 'a') ""
      metadata := .ofList [("principal", "dev")] }
  [.submit 0 4 [⟨some 5, request⟩]] ++ committing 4 "d"

/-- Nobody but the owner is left in the access record. -/
def revoking : List Event :=
  [.deed (.start 0 3 (.control (.access ⟨.privateRepo, .empty, 0, "root", none, ""⟩ none)))] ++
    committing 3 "c"

def runShared (events : List Event) : Option Server :=
  Runs.run (step ⟨3, List.length⟩ ⟨"root", "x"⟩ fun _ _ => true)
    (created (createdManifest (some sharedAccess) ⟨1, 0⟩ "w")) events

/-- The newest entry with its senders and updates, and whether the record it was committed onto
lets the user of a session write. -/
def lastUpdate (s : Server) (k : ℕ) : Option (List (Option ℕ) × List RefUpdate × Bool) :=
  match s.cluster.world.gens with
  | g' :: g :: _ => g'.origin.bind fun o => o.slot.bytes.head?.bind fun e => e.txn.bind fun t =>
      (s.sessions k).map fun session =>
        (s.senders o.slot.task, t.updates, decide (session.grant.mayWrite g.manifest.access))
  | _ => none

theorem lastUpdate_some {run : Option Server} {k : ℕ} {senders : List (Option ℕ)}
    {updates : List RefUpdate} {may : Bool}
    (h : (run.bind fun s => s.lastUpdate k) = some (senders, updates, may)) :
    ∃ s g' g older o e t session, run = some s ∧ s.cluster.world.gens = g' :: g :: older ∧
      g'.origin = some o ∧ e ∈ o.slot.bytes ∧ e.txn = some t ∧ s.sessions k = some session ∧
      s.senders o.slot.task = senders ∧ t.updates = updates ∧
      decide (session.grant.mayWrite g.manifest.access) = may := by
  obtain ⟨s, hs, h⟩ := Option.bind_eq_some_iff.mp h
  unfold lastUpdate at h
  split at h
  · rename_i g' g older hgens
    obtain ⟨o, ho, h⟩ := Option.bind_eq_some_iff.mp h
    obtain ⟨e, he, h⟩ := Option.bind_eq_some_iff.mp h
    obtain ⟨t, ht, h⟩ := Option.bind_eq_some_iff.mp h
    obtain ⟨session, hsession, heq⟩ := Option.map_eq_some_iff.mp h
    simp only [Prod.mk.injEq] at heq
    exact ⟨s, g', g, older, o, e, t, session, hs, hgens, ho, List.mem_of_mem_head? he, ht, hsession,
      heq⟩
  · cases h

/-- The deletion is committed onto a record that lets its user write. -/
theorem user_updates_permitted_deletion :
    ∃ s g' g older o e t, runShared (closedPull ++ deletion) = some s ∧
      s.cluster.world.gens = g' :: g :: older ∧ g'.origin = some o ∧ e ∈ o.slot.bytes ∧
      e.txn = some t ∧ t.updates = [⟨"refs/heads/topic", repeated 'a', "", ""⟩] ∧
      s.senders o.slot.task = [some 5] ∧
      ∃ session, s.sessions 5 = some session ∧ session.grant.mayWrite g.manifest.access := by
  have hrun : ((runShared (closedPull ++ deletion)).bind fun s => s.lastUpdate 5) =
      some ([some 5], [⟨"refs/heads/topic", repeated 'a', "", ""⟩], true) := by decide +kernel
  obtain ⟨s, g', g, older, o, e, t, session, hs, hgens, ho, he, ht, hsession, hsenders, hupdates,
    -⟩ := lastUpdate_some hrun
  have hnewest : s.cluster.world.gens = [] ++ g' :: g :: older := hgens
  have hkeeps : Runs.AllSteps (step ⟨3, List.length⟩ ⟨"root", "x"⟩ fun _ _ => true)
      (fun s e => s.keepsWriters e = true)
      (created (createdManifest (some sharedAccess) ⟨1, 0⟩ "w")) (closedPull ++ deletion) := by
    decide +kernel
  obtain ⟨i, sender, hsender, -, hpermitted⟩ :=
    user_updates_permitted hkeeps hs hnewest ho he ht (by simp [hupdates])
  have hi : sender = some 5 := by
    have hmem := List.mem_of_getElem? hsender
    rw [hsenders] at hmem
    simpa using hmem
  obtain ⟨session', sub, hsession', -, -, hmay⟩ := hpermitted 5 hi
  exact ⟨s, g', g, older, o, e, t, hs, hgens, ho, he, ht, hupdates, hsenders, session', hsession',
    hmay⟩

/-- An access edit between the handler's check and the commit takes Write away, and the deletion
is committed all the same. -/
theorem user_update_unpermitted :
    ∃ s g' g older o e t session, runShared (closedPull ++ revoking ++ deletion) = some s ∧
      s.cluster.world.gens = g' :: g :: older ∧ g'.origin = some o ∧ e ∈ o.slot.bytes ∧
      e.txn = some t ∧ t.updates = [⟨"refs/heads/topic", repeated 'a', "", ""⟩] ∧
      s.senders o.slot.task = [some 5] ∧ s.sessions 5 = some session ∧
      ¬session.grant.mayWrite g.manifest.access := by
  have hrun : ((runShared (closedPull ++ revoking ++ deletion)).bind fun s => s.lastUpdate 5) =
      some ([some 5], [⟨"refs/heads/topic", repeated 'a', "", ""⟩], false) := by decide
  obtain ⟨s, g', g, older, o, e, t, session, hs, hgens, ho, he, ht, hsession, hsenders, hupdates,
    hmay⟩ := lastUpdate_some hrun
  exact ⟨s, g', g, older, o, e, t, session, hs, hgens, ho, he, ht, hupdates, hsenders, hsession,
    by simpa using hmay⟩

end Deletion

end Server

end Walgit
