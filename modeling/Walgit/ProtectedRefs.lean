import Walgit.CompareAndSwap
import Walgit.WriteChecks

/-!
# Protected refs

The policy judges the value a push says it replaces; the publisher commits the push only where
that value is there. So what the policy refuses does not happen to the refs of the log, and
happens to a local copy only by a name that git follows.
-/
namespace Walgit

open Text

/-- The policy allows this change of a ref. -/
def RepoPolicy.allows (p : RepoPolicy) (principal : List String) (forward : String → String → Bool)
    (name : String) (old new : Option String) : Prop :=
  p.denyReason principal (fun u => !forward u.oldOid u.newOid)
    ⟨name, old.getD "", new.getD "", ""⟩ = none

instance (p : RepoPolicy) (principal : List String) (forward : String → String → Bool)
    (name : String) (old new : Option String) :
    Decidable (p.allows principal forward name old new) :=
  inferInstanceAs (Decidable (_ = none))

/-- The policy lets every update through as it is written, with plain object ids. -/
structure RefTransaction.Judged (t : RefTransaction) (p : RepoPolicy) (principal : List String)
    (forward : String → String → Bool) : Prop where
  allowed : ∀ u ∈ t.updates, p.denyReason principal (fun u => !forward u.oldOid u.newOid) u = none
  olds : ∀ u ∈ t.updates, isNullOid u.oldOid → u.oldOid = ""
  news : ∀ u ∈ t.updates, isNullOid u.newOid → u.newOid = ""

section Judged

variable {p : RepoPolicy} {principal : List String} {forward : String → String → Bool}
  {t : RefTransaction}

theorem ProtectEffect.restricted_force {e : ProtectEffect} {op : RefOp} (hop : op ≠ .update)
    (force force' : Bool) : e.restricted op force = e.restricted op force' := by
  cases op with
  | update => exact absurd rfl hop
  | _ => rfl

/-- Forced updates are looked for by name; more may be forced than are. -/
theorem RepoPolicy.denyReason_forces {ancestor : String → String → Bool} {u : RefUpdate}
    (hu : u ∈ t.updates)
    (h : p.denyReason principal (fun u => (p.forces ancestor t).contains u.name) u = none) :
    p.denyReason principal (fun u => !ancestor u.oldOid u.newOid) u = none := by
  by_cases hop : classify u.oldOid u.newOid = .update
  · by_cases hhas : p.hasProtect
    · refine denyReason_mono (fun hnot => ?_) h
      rw [forces, if_pos hhas, List.contains_iff_mem]
      exact List.mem_map.mpr ⟨u, List.mem_filter.mpr ⟨hu, by simp [hop, hnot]⟩, rfl⟩
    · refine denyReason_eq_none.mpr (Or.inr fun r hr => ?_)
      have hnone : r.protect = none := by
        have hno := List.any_eq_false.mp (Bool.not_eq_true _ ▸ hhas) r hr
        simpa using hno
      simp [denies, hnone]
  · rw [denyReason_eq_none] at h ⊢
    refine h.imp_right fun hall r hr => ?_
    have hno := hall r hr
    unfold denies at hno ⊢
    cases hprotect : r.protect with
    | none => rfl
    | some e =>
      simp only [hprotect, Option.any_some] at hno ⊢
      rwa [e.restricted_force hop _ ((p.forces ancestor t).contains u.name || _)]

/-- What a transaction that swaps the values of `s` leaves a ref at is allowed as a change of its
value in `s`. -/
theorem RefTransaction.Judged.written (h : t.Judged p principal forward) {s : RefState}
    (hold : ∀ u ∈ t.updates, u.plain → s.oldMatches u) {name : String} {u : RefUpdate}
    (hlast : t.last name = some u) :
    p.allows principal forward name (s.refs.find? name) u.value := by
  obtain ⟨hu, hplain, hname⟩ := RefTransaction.last_name hlast
  have hmatches := hold u hu hplain
  rw [RefState.oldMatches, hname] at hmatches
  have holdOid : (s.refs.find? name).getD "" = u.oldOid := by
    rw [hmatches]
    split_ifs with hnull
    · exact (h.olds u hu hnull).symm
    · rfl
  have hnewOid : u.value.getD "" = u.newOid := by
    unfold RefUpdate.value
    split_ifs with hnull
    · exact (h.news u hu hnull).symm
    · rfl
  have hallowed := h.allowed u hu
  have hwritten : u = ⟨name, u.oldOid, u.newOid, ""⟩ := by
    have hsymbolic : u.newSymbolicTarget = "" := by
      simpa [RefUpdate.plain, RefUpdate.symbolic] using hplain
    rw [← hname, ← hsymbolic]
  rw [RepoPolicy.allows, holdOid, hnewOid]
  rwa [hwritten] at hallowed

/-- The refs that a transaction changes anywhere change as the policy allows for `s`. -/
theorem RefTransaction.Judged.change (h : t.Judged p principal forward) {s copy : RefState}
    (hold : ∀ u ∈ t.updates, u.plain → s.oldMatches u) {name : String}
    (hne : (copy.applyTxn t).refs.find? name ≠ copy.refs.find? name) :
    p.allows principal forward name (s.refs.find? name) ((copy.applyTxn t).refs.find? name) := by
  rw [RefState.applyTxn_find?] at hne ⊢
  cases hlast : t.last name with
  | none =>
    rw [hlast] at hne
    exact absurd rfl hne
  | some u => exact h.written hold hlast

theorem RepoPolicy.mem_evaluate {isForce : RefUpdate → Bool} {u : RefUpdate}
    (h : u ∈ (p.evaluate principal isForce t).1.updates) :
    u ∈ t.updates ∧ p.denyReason principal isForce u = none := by
  simp only [evaluate] at h
  split_ifs at h
  · cases h
  · obtain ⟨hmem, hnone⟩ := List.mem_filter.mp h
    exact ⟨hmem, by simpa using hnone⟩

theorem mem_normalize {u : RefUpdate} (h : u ∈ (Receive.normalize t).updates) :
    (isNullOid u.oldOid → u.oldOid = "") ∧ (isNullOid u.newOid → u.newOid = "") := by
  obtain ⟨v, -, rfl⟩ := List.mem_map.mp h
  dsimp only
  refine ⟨fun hnull => ?_, fun hnull => ?_⟩
  · split_ifs at hnull ⊢ with hzero
    · rfl
    · exact absurd hnull hzero
  · split_ifs at hnull ⊢ with hzero
    · rfl
    · exact absurd hnull hzero

theorem mem_defaultBranchFromFirstPush {seen : RefState} {u : RefUpdate}
    (h : u ∈ (Receive.defaultBranchFromFirstPush seen t).updates) :
    u ∈ t.updates ∨ ∃ branch, u = ⟨"HEAD", "", "", branch⟩ := by
  unfold Receive.defaultBranchFromFirstPush at h
  dsimp only at h
  split_ifs at h
  · exact Or.inl h
  · exact Or.inl h
  · split at h
    · exact Or.inl h
    · rename_i branch _
      rcases List.mem_append.mp h with h | h
      · exact Or.inl h
      · exact Or.inr ⟨branch, List.mem_singleton.mp h⟩

/-- The default branch is a symbolic update of HEAD, which no rule is about. -/
theorem RefTransaction.Judged.defaultBranch (h : t.Judged p principal forward) (seen : RefState) :
    (Receive.defaultBranchFromFirstPush seen t).Judged p principal forward := by
  refine ⟨fun u hu => ?_, fun u hu => ?_, fun u hu => ?_⟩
  · rcases mem_defaultBranchFromFirstPush hu with hu | ⟨branch, rfl⟩
    · exact h.allowed u hu
    · exact RepoPolicy.denyReason_eq_none.mpr (Or.inl rfl)
  · rcases mem_defaultBranchFromFirstPush hu with hu | ⟨branch, rfl⟩
    · exact h.olds u hu
    · exact fun _ => rfl
  · rcases mem_defaultBranchFromFirstPush hu with hu | ⟨branch, rfl⟩
    · exact h.news u hu
    · exact fun _ => rfl

end Judged

namespace Handlers

variable [CharTables]

/-- What a push submits was judged by the policy. -/
theorem receivePack_judged {g : Grant} {p : RepoPolicy} {forward : String → String → Bool}
    {unknown : List (String × String)} {seen : RefState} {lines : List PktLine}
    {pack : Option IngestedPack} {agent : String} {requestId : Option String}
    {request : PublishRequest} (h : receivePack g p (ancestry forward unknown) seen lines pack
      agent requestId = some request) : request.txn.Judged p g.subject.names forward := by
  obtain ⟨publish, hpublish, -, htxn, -⟩ := receivePack_some h
  unfold evaluated at hpublish
  obtain ⟨t, -, hpublish⟩ := Checks.bind_eq_ok.mp hpublish
  have heq := Except.ok.inj hpublish
  rw [htxn]
  refine RefTransaction.Judged.defaultBranch ⟨fun u hu => ?_, fun u hu => ?_, fun u hu => ?_⟩ seen
  · rw [← heq] at hu
    obtain ⟨hmem, hnone⟩ := RepoPolicy.mem_evaluate hu
    refine RepoPolicy.denyReason_mono (fun hnot => ?_) (RepoPolicy.denyReason_forces hmem hnone)
    simp only [ancestry, Bool.not_eq_true'] at hnot ⊢
    simp [hnot]
  · rw [← heq] at hu
    exact (mem_normalize (RepoPolicy.mem_evaluate hu).1).1
  · rw [← heq] at hu
    exact (mem_normalize (RepoPolicy.mem_evaluate hu).1).2

end Handlers

section Refs

variable [CharTables]

theorem plain_names_ref {u : RefUpdate} (hvalid : (validateRefUpdate u).isOk) (hplain : u.plain)
    (hhead : u.name ≠ "HEAD") : startsWith "refs/" u.name := by
  have hsymbolic : u.symbolic = false := by simpa [RefUpdate.plain] using hplain
  unfold validateRefUpdate at hvalid
  rw [if_neg (by simp [hsymbolic]), Checks.isOk_iff] at hvalid
  obtain ⟨_, hname, -⟩ := Checks.bind_eq_ok.mp hvalid
  unfold validateRefName at hname
  rw [if_neg hhead] at hname
  by_contra hnot
  simp [hnot] at hname

/-- The policy allows what a submission does to the refs: in the log, where it replaces the values
of `r`, and in any copy it is applied to. -/
structure Submission.Respected (sub : Submission) (principal : List String)
    (forward : String → String → Bool) (r : RefState) : Prop where
  log : ∀ name, (r.applyTxn sub.request.txn).refs.find? name ≠ r.refs.find? name →
    sub.policy.allows principal forward name (r.refs.find? name)
      ((r.applyTxn sub.request.txn).refs.find? name)
  copy : ∀ copy copy' : RefState, copy.applyRefTxn sub.request.txn = some copy' →
    ∀ name, copy'.refs.find? name ≠ copy.refs.find? name →
      sub.policy.allows principal forward name (r.refs.find? name) (copy'.refs.find? name)
  /-- HEAD's target, as an update of HEAD is judged. -/
  head : ∀ u ∈ sub.request.txn.updates, u.symbolic → sub.policy.denyReason principal
    (fun u => !forward u.oldOid u.newOid) u = none

end Refs

namespace Server

section Runs

variable [CharTables] {cfg : Config} {id : RepoId} {forward : String → String → Bool}
  {s s' : Server}

/-- What the event does to the cluster is sound. -/
def sound (s : Server) : Event → Bool
  | .deed d => s.cluster.sound d
  | .submit h t members => s.cluster.sound (.start h t (.batch (members.map Member.request)))
  | _ => true

/-- The server's invariant over sound events. -/
structure Sound (cfg : Config) (forward : String → String → Bool) (s : Server) : Prop where
  traced : Traced cfg forward s
  ok : s.cluster.Ok cfg
  judged : JudgedOnto s.cluster.world.gens

theorem Sound.step (h : Sound cfg forward s) {e : Event} (hsound : s.sound e)
    (hstep : step cfg id forward s e = some s') : Sound cfg forward s' := by
  have hcluster : ∀ {d : Deed} {c : Cluster}, s.cluster.sound d = true →
      Cluster.step cfg s.cluster d = some c → c.Ok cfg ∧ JudgedOnto c.world.gens :=
    fun hd hc => ⟨h.ok.step hd hc, h.ok.judgedOnto (h.ok.step hd hc) hc h.judged⟩
  obtain ⟨hok, hjudged⟩ : s'.cluster.Ok cfg ∧ JudgedOnto s'.cluster.world.gens := by
    rcases step_cases hstep with ⟨d, c, rfl, -, hc, rfl⟩ | ⟨k, session, -, -, -, rfl⟩ |
      ⟨k, session, sub, -, -, -, rfl⟩ | ⟨i, t, members, c, rfl, -, hc, rfl⟩
    · exact hcluster hsound hc
    · exact ⟨h.ok, h.judged⟩
    · exact ⟨h.ok, h.judged⟩
    · exact hcluster hsound hc
  exact ⟨h.traced.step hstep, hok, hjudged⟩

theorem sound_run {access : Option RepoAccess} {now : Timestamp} {writer : String}
    {events : List Event} (hsound : Runs.AllSteps (step cfg id forward)
      (fun s e => s.sound e = true) (created (createdManifest access now writer)) events)
    (hrun : Runs.run (step cfg id forward) (created (createdManifest access now writer)) events =
      some s) : Sound cfg forward s := by
  refine Runs.invariant (I := Sound cfg forward) (fun _ _ _ h hok hstep => h.step hok hstep) hrun
    hsound ⟨traced_created access now writer, Cluster.ok_created cfg access now writer, trivial, ?_⟩
  rintro o ⟨⟩

/-- Whatever a push asks for, and whatever runs beside it, its policy allows what it changes. -/
theorem protected_refs_kept {access : Option RepoAccess} {now : Timestamp} {writer : String}
    {events : List Event} (hsound : Runs.AllSteps (step cfg id forward)
      (fun s e => s.sound e = true) (created (createdManifest access now writer)) events)
    (hrun : Runs.run (step cfg id forward) (created (createdManifest access now writer)) events =
      some s) {before after : List LogEntry} {e : LogEntry}
    (hsplit : committedEntries s.cluster.world.gens = before ++ e :: after) {t : RefTransaction}
    (htxn : e.txn = some t) :
    ∃ o i sender, Committed s.cluster.world o ∧ o.entryOf i = some e ∧
      (s.senders o.slot.task)[i]? = some sender ∧
      ∀ k ∈ sender, ∃ session sub, s.sessions k = some session ∧ session.submission = some sub ∧
        sub.request.txn = t ∧ (sub.handler = .receivePack →
          sub.Respected session.grant.subject.names forward (foldRefs .fresh before)) := by
  have h := sound_run hsound hrun
  have he : e ∈ committedEntries s.cluster.world.gens := by simp [hsplit]
  rw [committedEntries_eq] at he
  obtain ⟨o, ho, hmem⟩ := List.mem_flatMap.mp he
  obtain ⟨g, hg, horigin⟩ := mem_committedOrigins.mp ho
  have hclaim := h.traced.inv.claimed o ⟨g, hg, horigin⟩
  have hswaps : (foldRefs .fresh before).Swaps t := by
    have hall := h.ok.world.inv.chain.swaps h.judged fun g hg o ho =>
      h.ok.world.claims o (h.ok.world.inv.claimed o ⟨g, hg, ho⟩)
    rw [hsplit, List.filterMap_append, List.filterMap_cons_some htxn] at hall
    exact hall.of_append
  have hportable := h.ok.world.claims o hclaim
  obtain ⟨i, sender, request, work, hsender, hentry, -, rfl, hsent⟩ := h.traced.sender hclaim hmem htxn
  refine ⟨o, i, sender, ⟨g, hg, horigin⟩, hentry, hsender, fun k hk => ?_⟩
  obtain ⟨session, sub, hsession, hsub, rfl⟩ := hsent k hk
  refine ⟨session, sub, hsession, hsub, rfl, fun hhandler => ?_⟩
  obtain ⟨k', e', hmade⟩ := h.traced.made k session sub hsession hsub
  cases hmade with
  | merge policy forge refs number method sha built request hmade => cases hhandler
  | deleteBranch policy forge refs number request hmade => cases hhandler
  | receivePack policy unknown seen lines pack agent requestId request hmade =>
    have hjudged := Handlers.receivePack_judged hmade
    obtain ⟨hvalid, hhead⟩ :=
      ((h.traced.inv.claims o hclaim).wrote.portable hportable e hmem).2 _ htxn
    have hold : ∀ u ∈ request.txn.updates, u.plain → (foldRefs .fresh before).oldMatches u := by
      intro u hu hplain
      refine hswaps u hu hplain (plain_names_ref (List.all_eq_true.mp hvalid u hu) hplain ?_)
      exact (RefTransaction.plain_updates hhead u (List.mem_filter.mpr ⟨hu, hplain⟩)).2
    refine ⟨fun name hne => hjudged.change hold hne, fun copy copy' hcopy name hne => ?_,
      fun u hu _ => hjudged.allowed u hu⟩
    obtain rfl := RefState.applyRefTxn_eq_applyTxn hhead hcopy
    exact hjudged.change hold hne

end Runs

section Push

attribute [local instance] asciiTables

/-- Nobody creates, moves or deletes the branch. -/
def lockMain : RepoPolicy :=
  { rules := [{
      name := "lock-main"
      match_ := { refs := ["refs/heads/main"] }
      protect := some {} }] }

/-- A collaborator pushes another branch. -/
def otherBranch : List Event :=
  [.deed (.openRepo 0 none)] ++ pushing lockMain 1 [command "0" "a" "refs/heads/dev", .flush]
    (pushed [⟨"refs/heads/dev", "", repeated 'a', ""⟩, ⟨"HEAD", "", "", "refs/heads/dev"⟩]) ++
    committing 1 "a"

/-- The push is allowed and its change of the refs respects the policy. -/
theorem protected_refs_kept_otherBranch :
    ∃ s e t session sub, runShared otherBranch = some s ∧
      committedEntries s.cluster.world.gens = [e] ∧ e.txn = some t ∧ s.sessions 5 = some session ∧
      session.submission = some sub ∧ sub.policy = lockMain ∧
      (RefState.fresh.applyTxn t).refs.find? "refs/heads/dev" = some (repeated 'a') ∧
      sub.Respected session.grant.subject.names (fun _ _ => true) .fresh := by
  have hrun : ((runShared otherBranch).bind fun s => (s.sessions 5).bind fun session =>
      session.submission.map fun sub => ((committedEntries s.cluster.world.gens).map fun e =>
        e.txn.map fun t => (RefState.fresh.applyTxn t).refs.find? "refs/heads/dev",
        s.senders 1, s.cluster.world.gens.map fun g => g.origin.map fun o => o.slot.task,
        decide (sub.policy = lockMain ∧ sub.handler = .receivePack))) =
      some ([some (some (repeated 'a'))], [some 5], [some 1, none], true) := by
    decide +kernel
  obtain ⟨s, hs, hrest⟩ := Option.bind_eq_some_iff.mp hrun
  obtain ⟨session, hsession, hrest⟩ := Option.bind_eq_some_iff.mp hrest
  obtain ⟨sub, hsub, heq⟩ := Option.map_eq_some_iff.mp hrest
  simp only [Prod.mk.injEq, decide_eq_true_eq] at heq
  obtain ⟨hentries, hsenders, htasks, hpolicy, hhandler⟩ := heq
  obtain ⟨e, rest, hlog, he, hnil⟩ := List.map_eq_cons_iff.mp hentries
  obtain rfl := List.map_eq_nil_iff.mp hnil
  obtain ⟨t, ht, hdev⟩ := Option.map_eq_some_iff.mp he
  obtain ⟨o, i, sender, ⟨g, hg, ho⟩, -, hsender, hkept⟩ :=
    protected_refs_kept (by decide +kernel) hs
      (show committedEntries _ = [] ++ e :: [] from hlog) ht
  have htask : o.slot.task = 1 := by
    have hmem : some o.slot.task ∈ [some 1, none] := by
      rw [← htasks]
      exact List.mem_map.mpr ⟨g, hg, by rw [ho]; rfl⟩
    simpa using hmem
  rw [htask, hsenders] at hsender
  have hfive : sender = some 5 := by simpa using List.mem_of_getElem? hsender
  obtain ⟨session', sub', hsession', hsub', -, hrespected⟩ := hkept 5 hfive
  obtain rfl := Option.some.inj (hsession.symm.trans hsession')
  obtain rfl := Option.some.inj (hsub.symm.trans hsub')
  exact ⟨s, e, t, session, sub, hs, hlog, ht, hsession, hsub, hpolicy, hdev, hrespected hhandler⟩

/-- The host creates the locked branch, and a collaborator pushes HEAD by its name. -/
def lockedHead : List Event :=
  let first : PublishRequest :=
    { txn := Handlers.single "refs/heads/main" "" (repeated 'a'), actor := some root }
  [.deed (.openRepo 0 none), .submit 0 1 [⟨none, first⟩]] ++ committing 1 "a" ++
    pushing lockMain 2 [command "a" "b" "HEAD", .flush]
      (pushed [⟨"HEAD", repeated 'a', repeated 'b', ""⟩]) ++ (committing 2 "b").take 4

/-- Where the push is committed and applied, git follows HEAD and moves the locked branch. -/
theorem protected_ref_moved_head :
    ∃ s s' c c' session sub, runShared lockedHead = some s ∧
      runShared (lockedHead ++ [.deed (.settle 2 none)]) = some s' ∧
      s.cluster.copy 0 = some c ∧ s'.cluster.copy 0 = some c' ∧ s.sessions 5 = some session ∧
      session.submission = some sub ∧ sub.handler = .receivePack ∧ s.senders 2 = [some 5] ∧
      c.disk.refs.refs.find? "refs/heads/main" = some (repeated 'a') ∧
      c'.disk.refs.refs.find? "refs/heads/main" = some (repeated 'b') ∧
      ¬sub.policy.allows session.grant.subject.names (fun _ _ => true) "refs/heads/main"
        (some (repeated 'a')) (some (repeated 'b')) := by
  have hrun : ((runShared lockedHead).bind fun s => (s.cluster.copy 0).bind fun c =>
      (s.sessions 5).bind fun session => session.submission.map fun sub =>
        (c.disk.refs.refs.find? "refs/heads/main", s.senders 2,
          decide (sub.handler = .receivePack ∧
            ¬sub.policy.allows session.grant.subject.names (fun _ _ => true) "refs/heads/main"
              (some (repeated 'a')) (some (repeated 'b'))))) =
      some (some (repeated 'a'), [some 5], true) := by decide +kernel
  have hsettled : ((runShared (lockedHead ++ [.deed (.settle 2 none)])).bind fun s =>
      (s.cluster.copy 0).map fun c => c.disk.refs.refs.find? "refs/heads/main") =
      some (some (repeated 'b')) := by decide +kernel
  obtain ⟨s, hs, hrest⟩ := Option.bind_eq_some_iff.mp hrun
  obtain ⟨c, hc, hrest⟩ := Option.bind_eq_some_iff.mp hrest
  obtain ⟨session, hsession, hrest⟩ := Option.bind_eq_some_iff.mp hrest
  obtain ⟨sub, hsub, heq⟩ := Option.map_eq_some_iff.mp hrest
  obtain ⟨s', hs', hrest⟩ := Option.bind_eq_some_iff.mp hsettled
  obtain ⟨c', hc', hmoved⟩ := Option.map_eq_some_iff.mp hrest
  simp only [Prod.mk.injEq, decide_eq_true_eq] at heq
  obtain ⟨hmain, hsenders, hhandler, hrefused⟩ := heq
  exact ⟨s, s', c, c', session, sub, hs, hs', hc, hc', hsession, hsub, hhandler, hsenders,
    hmain, hmoved, hrefused⟩

end Push

end Server

end Walgit
