import Walgit.History
import Walgit.WriteChecks

/-!
# One update per ref

Nothing between the wire and the log looks for a name that a push gives twice: the parser, the
policy, the default branch and the publisher take the updates one by one. A log has distinct names
where the pushes have them.
-/
namespace Walgit

open Text

namespace RefTransaction

/-- No name is given twice. -/
def distinct (t : RefTransaction) : Bool := decide (t.updates.map RefUpdate.name).Nodup

theorem distinct_single (name old new : String) : (Handlers.single name old new).distinct := by
  simp [distinct, Handlers.single]

/-- The default branch is added as HEAD only where the push does not name HEAD. -/
theorem distinct_defaultBranchFromFirstPush (seen : RefState) (t : RefTransaction) :
    (Receive.defaultBranchFromFirstPush seen t).distinct = t.distinct := by
  unfold Receive.defaultBranchFromFirstPush
  split_ifs with hkeep
  · rfl
  · dsimp only
    split_ifs
    · rfl
    · split
      · rfl
      · have hhead : "HEAD" ∉ t.updates.map RefUpdate.name := by
          simp only [Bool.or_eq_true, not_or, RefTransaction.namesHead, List.any_eq_true,
            beq_iff_eq] at hkeep
          simpa using hkeep.2
        simp only [distinct, List.map_append, List.map_cons, List.map_nil, List.nodup_append_comm,
          List.singleton_append, List.nodup_cons, hhead, not_false_eq_true, true_and]

end RefTransaction

def Job.distinct : Job → Bool
  | .batch reqs => reqs.all fun request => request.txn.distinct
  | _ => true

namespace Server

section Runs

variable [CharTables] {cfg : Config} {id : RepoId} {forward : String → String → Bool}
  {s s' : Server}

/-- The commands of a push that the policy lets through name no ref twice, nor does an update of
the host itself. -/
def namesOnce (forward : String → String → Bool) (s : Server) : Event → Bool
  | .receivePack k policy unknown lines _ _ _ => (s.sessions k).all fun session =>
      (Handlers.evaluated session.grant policy (ancestry forward unknown) lines).toOption.all
        RefTransaction.distinct
  | .submit _ _ members => members.all fun m => m.session.isSome || m.request.txn.distinct
  | _ => true

/-- Submissions and batches name no ref twice. -/
structure Distinct (s : Server) : Prop where
  submissions : ∀ k session sub, s.sessions k = some session → session.submission = some sub →
    sub.request.txn.distinct
  tasks : ∀ t task, s.cluster.world.tasks t = some task → task.job.distinct
  claims : ∀ o ∈ s.cluster.world.claims, o.job.distinct

/-- A push submits distinct names exactly if the policy lets distinct names through. -/
theorem receivePack_distinct {g : Grant} {p : RepoPolicy} {ancestor : String → String → Bool}
    {seen : RefState} {lines : List PktLine} {pack : Option IngestedPack} {agent : String}
    {requestId : Option String} {request : PublishRequest}
    (h : Handlers.receivePack g p ancestor seen lines pack agent requestId = some request) :
    request.txn.distinct =
      (Handlers.evaluated g p ancestor lines).toOption.all RefTransaction.distinct := by
  obtain ⟨publish, hpublish, -, htxn, -⟩ := Handlers.receivePack_some h
  rw [htxn, hpublish, RefTransaction.distinct_defaultBranchFromFirstPush]
  rfl

theorem Distinct.step (h : Distinct s) {e : Event} (honce : s.namesOnce forward e)
    (hstep : step cfg id forward s e = some s') : Distinct s' := by
  rcases step_cases hstep with ⟨d, c, rfl, hbatch, hc, rfl⟩ | ⟨k, session, -, hnew, -, rfl⟩ |
    ⟨k, session, sub, hold, -, hmade, rfl⟩ | ⟨i, t, members, c, rfl, hqueued, hc, rfl⟩
  · rcases Cluster.step_world hc with heq | ⟨a, hw, -, hstart, -⟩
    · refine ⟨h.submissions, fun t task htask => ?_, fun o ho => ?_⟩
      · exact h.tasks t task (heq ▸ htask)
      · exact h.claims o (heq ▸ ho)
    · refine ⟨h.submissions, fun t task htask => ?_, fun o ho => ?_⟩
      · rcases step_jobs hw htask with rfl | ⟨task₀, htask₀, hjob⟩
        · obtain ⟨i, rfl⟩ := hstart t task.job rfl
          cases hjob : task.job with
          | batch reqs =>
            rw [Deed.startsBatch, hjob] at hbatch
            cases hbatch
          | _ => rfl
        · exact hjob ▸ h.tasks t task₀ htask₀
      · rcases step_claims hw ho with ho | ⟨task, htask, hjob, -⟩
        · exact h.claims o ho
        · exact hjob ▸ h.tasks _ task htask
  · refine ⟨fun k' session' sub hsession hsub => ?_, h.tasks, h.claims⟩
    simp only [Function.update_apply] at hsession
    split_ifs at hsession
    · cases hsession
      rw [hnew] at hsub
      cases hsub
    · exact h.submissions k' session' sub hsession hsub
  · refine ⟨fun k' session' sub' hsession hsub => ?_, h.tasks, h.claims⟩
    simp only [queue, Function.update_apply] at hsession
    split_ifs at hsession
    · cases hsession
      cases hsub
      cases hmade with
      | receivePack policy unknown seen lines pack agent requestId request hmade =>
        simp only [namesOnce, hold, Option.all_some] at honce
        exact (receivePack_distinct hmade).trans honce
      | merge policy forge refs number method sha built request hmade =>
        obtain ⟨name, old, new, htxn, -⟩ := Handlers.merge_ok hmade
        exact htxn ▸ RefTransaction.distinct_single name old new
      | deleteBranch policy forge refs number request hmade =>
        obtain ⟨name, old, htxn, -⟩ := Handlers.deleteBranch_ok hmade
        exact htxn ▸ RefTransaction.distinct_single name old ""
    · exact h.submissions k' session' sub' hsession hsub
  · obtain ⟨handle, w, -, hw, rfl⟩ := Cluster.step_start hc
    have hmembers : (Job.batch (members.map Member.request)).distinct := by
      simp only [Job.distinct, List.all_map, List.all_eq_true, Function.comp_apply]
      intro m hm
      cases hsession : m.session with
      | none =>
        have hhost := List.all_eq_true.mp honce m hm
        simpa [hsession] using hhost
      | some k =>
        obtain ⟨session, sub, hold, hsub, hrequest⟩ := queued_some (hqueued m hm) k hsession
        exact hrequest ▸ h.submissions k session sub hold hsub
    refine ⟨h.submissions, fun t' task htask => ?_, fun o ho => ?_⟩
    · rcases step_jobs hw htask with heq | ⟨task₀, htask₀, hjob⟩
      · injection heq with _ hjob
        exact hjob ▸ hmembers
      · exact hjob ▸ h.tasks t' task₀ htask₀
    · rcases step_claims hw ho with ho | ⟨task, htask, hjob, -⟩
      · exact h.claims o ho
      · exact hjob ▸ h.tasks _ task htask

end Runs

/-- The updates of the log under the key that events are told apart by. -/
def eventKeys (entries : List LogEntry) : List (ℕ × String) :=
  entries.flatMap fun e => (e.txn.toList.flatMap RefTransaction.updates).map fun u => (e.seq, u.name)

section Log

variable [CharTables] {cfg : Config} {id : RepoId} {forward : String → String → Bool} {s : Server}

/-- If no push names a ref twice, no entry of the log does, and the events of the log have
different keys. -/
theorem committed_names_distinct {access : Option RepoAccess} {now : Timestamp} {writer : String}
    {events : List Event} (honce : Runs.AllSteps (step cfg id forward)
      (fun s e => s.namesOnce forward e = true) (created (createdManifest access now writer)) events)
    (hrun : Runs.run (step cfg id forward) (created (createdManifest access now writer)) events =
      some s) :
    (∀ e ∈ committedEntries s.cluster.world.gens, ∀ t ∈ e.txn,
      (t.updates.map RefUpdate.name).Nodup) ∧
      (eventKeys (committedEntries s.cluster.world.gens)).Nodup := by
  have htraced := traced_run hrun
  have hdistinct : Distinct s := by
    refine Runs.invariant (I := Distinct) (fun _ _ _ h hok hstep => h.step hok hstep) hrun honce
      ⟨?_, ?_, ?_⟩ <;> simp [created, Cluster.created, World.created]
  have hnames : ∀ e ∈ committedEntries s.cluster.world.gens, ∀ t ∈ e.txn,
      (t.updates.map RefUpdate.name).Nodup := by
    intro e he t ht
    rw [committedEntries_eq] at he
    obtain ⟨o, ho, hmem⟩ := List.mem_flatMap.mp he
    obtain ⟨g, hg, horigin⟩ := mem_committedOrigins.mp ho
    have hclaim := htraced.inv.claimed o ⟨g, hg, horigin⟩
    have hwrote := (htraced.inv.claims o hclaim).wrote
    have htxn : e.txn = some t := ht
    obtain ⟨reqs, i, request, hjob, hreq, hentry⟩ :=
      Origin.requested hwrote hmem (Or.inl (by simp [htxn]))
    obtain ⟨-, -, -, hwritten⟩ := Origin.entryOf_judged hwrote hjob hreq hentry
    have hall := hdistinct.claims o hclaim
    rw [hjob] at hall
    have hone := List.all_eq_true.mp hall request (List.mem_of_getElem? hreq)
    rw [htxn] at hwritten
    split_ifs at hwritten
    rw [Option.some.inj hwritten]
    exact of_decide_eq_true hone
  refine ⟨hnames, List.nodup_flatMap.mpr ⟨fun e he => ?_, ?_⟩⟩
  · cases htxn : e.txn with
    | none => simp
    | some t =>
      have hone := hnames e he t htxn
      simp only [Option.toList_some, List.flatMap_cons, List.flatMap_nil, List.append_nil]
      exact List.Nodup.of_map Prod.snd (by simpa [Function.comp_def] using hone)
  · refine (htraced.inv.chain.sorted).imp fun hlt => ?_
    simp only [Function.onFun, List.disjoint_left, List.mem_map, not_exists, not_and]
    rintro key ⟨u, -, rfl⟩ v - heq
    exact absurd (congrArg Prod.fst heq) (Nat.ne_of_gt hlt)

end Log

section Push

attribute [local instance] asciiTables

/-- A push of two branches. -/
def twoBranches : List Event :=
  [.deed (.openRepo 0 none)] ++
    pushing {} 1 [command "0" "a" "refs/heads/main", command "0" "b" "refs/heads/dev", .flush]
      (pushed [⟨"refs/heads/main", "", repeated 'a', ""⟩,
        ⟨"refs/heads/dev", "", repeated 'b', ""⟩]) ++ committing 1 "a"

theorem committed_names_distinct_twoBranches :
    ∃ s, runShared twoBranches = some s ∧
      eventKeys (committedEntries s.cluster.world.gens) =
        [(1, "refs/heads/main"), (1, "refs/heads/dev")] ∧
      (eventKeys (committedEntries s.cluster.world.gens)).Nodup := by
  have hrun : ((runShared twoBranches).map fun s =>
      eventKeys (committedEntries s.cluster.world.gens)) =
      some [(1, "refs/heads/main"), (1, "refs/heads/dev")] := by decide +kernel
  obtain ⟨s, hs, hkeys⟩ := Option.map_eq_some_iff.mp hrun
  exact ⟨s, hs, hkeys, (committed_names_distinct (by decide +kernel) hs).2⟩

/-- A push that creates one branch twice. -/
def sameBranch : List Event :=
  [.deed (.openRepo 0 none)] ++
    pushing {} 1 [command "0" "a" "refs/heads/main", command "0" "b" "refs/heads/main", .flush]
      (pushed [⟨"refs/heads/main", "", repeated 'a', ""⟩,
        ⟨"refs/heads/main", "", repeated 'b', ""⟩]) ++ committing 1 "a"

/-- Both updates of the branch are committed as one entry, which git refuses to apply. -/
theorem committed_names_sameBranch :
    ∃ s e t, runShared sameBranch = some s ∧ committedEntries s.cluster.world.gens = [e] ∧
      e.txn = some t ∧ t.updates.map RefUpdate.name = ["refs/heads/main", "refs/heads/main"] ∧
      RefState.fresh.applyRefTxn t = none := by
  have hrun : ((runShared sameBranch).map fun s =>
      (committedEntries s.cluster.world.gens).map fun e => e.txn.map fun t =>
        (t.updates.map RefUpdate.name, RefState.fresh.applyRefTxn t)) =
      some [some (["refs/heads/main", "refs/heads/main"], none)] := by decide +kernel
  obtain ⟨s, hs, hentries⟩ := Option.map_eq_some_iff.mp hrun
  obtain ⟨e, rest, hlog, he, hrest⟩ := List.map_eq_cons_iff.mp hentries
  rw [List.map_eq_nil_iff] at hrest
  subst hrest
  obtain ⟨t, ht, heq⟩ := Option.map_eq_some_iff.mp he
  simp only [Prod.mk.injEq] at heq
  exact ⟨s, e, t, hs, hlog, ht, heq⟩

end Push

end Server

end Walgit
