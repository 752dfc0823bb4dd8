import Walgit.Convergence

/-!
# Compare and swap on refs

Every committed claim was judged against the fold of the log before it, so each update names
the value its ref has there.
-/
namespace Walgit

namespace RefState

/-- The value an update says its ref has is the one it has; the null id means absent. -/
def oldMatches (s : RefState) (u : RefUpdate) : Prop :=
  s.refs.find? u.name = if isNullOid u.oldOid then none else some u.oldOid

/-- Every update of a ref is a swap of the value that is there. -/
def Swaps (s : RefState) (t : RefTransaction) : Prop :=
  ∀ u ∈ t.updates, u.plain → Text.startsWith "refs/" u.name → s.oldMatches u

/-- No ref holds the null id. -/
def NonNull (s : RefState) : Prop := ∀ name oid, s.refs.find? name = some oid → isNullOid oid = false

theorem nonNull_fresh : fresh.NonNull := by
  intro name oid h
  simp [fresh] at h

theorem NonNull.applyUpdate {s : RefState} (h : s.NonNull) (u : RefUpdate) :
    (s.applyUpdate u).NonNull := by
  intro name oid hfind
  unfold RefState.applyUpdate at hfind
  split_ifs at hfind with hsym hhead hnull
  · exact h name oid hfind
  · exact h name oid hfind
  · rw [SortedMap.find?_erase] at hfind
    split_ifs at hfind
    exact h name oid hfind
  · rw [SortedMap.find?_insert] at hfind
    split_ifs at hfind
    · cases hfind
      simpa using hnull
    · exact h name oid hfind

theorem NonNull.applyTxn {s : RefState} (h : s.NonNull) (t : RefTransaction) :
    (s.applyTxn t).NonNull := by
  unfold RefState.applyTxn
  induction t.updates generalizing s with
  | nil => exact h
  | cons u us ih => exact ih (h.applyUpdate u)

theorem NonNull.foldRefs {s : RefState} (h : s.NonNull) (es : List LogEntry) :
    (foldRefs s es).NonNull := by
  unfold Walgit.foldRefs RefState.applyTxns
  induction es.filterMap LogEntry.txn generalizing s with
  | nil => exact h
  | cons t ts ih => exact ih (h.applyTxn t)

end RefState

theorem head_ne_ref {name : String} (h : Text.startsWith "refs/" name) : name ≠ "HEAD" := by
  rintro rfl
  revert h
  decide

/-- What the publisher checks is that the update is a swap. -/
theorem oldMatches_of_verifyUpdate {v : RefView} {s : RefState} {u : RefUpdate}
    (hv : v.SameOffHead (.new s)) (hs : s.NonNull) (hplain : u.plain)
    (hname : Text.startsWith "refs/" u.name) (h : verifyUpdate v u = none) : s.oldMatches u := by
  have hhead := head_ne_ref hname
  have hsym : u.symbolic = false := by simpa [RefUpdate.plain] using hplain
  have hvalue : (v.get u.name).getD "" = (s.refs.find? u.name).getD "" := by
    refine (hv u.name hhead).trans ?_
    rw [RefView.value_of_ne hhead]
    simp [RefView.new]
  simp only [verifyUpdate, hsym, Bool.false_eq_true, if_false, hvalue] at h
  unfold RefState.oldMatches
  split_ifs at h ⊢ with hnull hempty hold
  · cases hfind : s.refs.find? u.name with
    | none => rfl
    | some oid =>
      rw [hfind, Option.getD_some] at hempty
      have := hs u.name oid hfind
      rw [hempty] at this
      cases this
  · cases hfind : s.refs.find? u.name with
    | none =>
      rw [hfind, Option.getD_none] at hold
      rw [← hold] at hnull
      exact absurd rfl hnull
    | some oid =>
      rw [hfind, Option.getD_some] at hold
      rw [hold]

/-- Requests without updates have no transaction in the log, and swap nothing. -/
theorem along_buildEntries {s : RefState} (writer : String) (publishedAt : Timestamp)
    (now : ℕ → Timestamp) (seq : ℕ) {members : List (PublishRequest × List ForgeEvent)}
    (h : Replay.Along RefState.applyTxn RefState.Swaps s (members.map fun m => m.1.txn)) :
    Replay.Along RefState.applyTxn RefState.Swaps s
      ((buildEntries writer publishedAt now seq members).filterMap LogEntry.txn) := by
  induction members generalizing s seq with
  | nil => trivial
  | cons m members ih =>
    obtain ⟨hhead, htail⟩ := h
    have hrest := ih (seq + 1) htail
    rw [buildEntries]
    cases honly : m.1.forgeOnly with
    | true =>
      have hnil : m.1.txn.updates = [] := by simpa using (Bool.and_eq_true_iff.mp honly).2
      have hsame : s.applyTxn m.1.txn = s := by simp [RefState.applyTxn, hnil]
      rw [List.filterMap_cons_none (by simp [buildEntry, honly])]
      rwa [hsame] at hrest
    | false =>
      rw [List.filterMap_cons_some (by simp [buildEntry, honly]; rfl)]
      exact ⟨hhead, hrest⟩

theorem filterMap_txn_withNonce (uuid : String) (es : List LogEntry) :
    (withNonce uuid es).filterMap LogEntry.txn = es.filterMap LogEntry.txn := by
  cases es <;> rfl

section Batches

variable [Text.CharTables]

/-- Accepted requests swap, each over the ones accepted before it. -/
theorem judgeAll_swaps (b : Basis) {reqs : List PublishRequest}
    (hsym : ∀ r ∈ reqs, ∀ u ∈ r.txn.updates, u.symbolic → u.name = "HEAD") {w : Working}
    {s : RefState} (hs : s.NonNull) (h : w.refs.SameOffHead (.new s)) :
    Replay.Along RefState.applyTxn RefState.Swaps s
      ((accepted reqs (judgeAll b w reqs).1).map fun m => m.1.txn) := by
  induction reqs generalizing w s with
  | nil => trivial
  | cons req reqs ih =>
    have hrest := fun r hr => hsym r (List.mem_cons_of_mem req hr)
    simp only [judgeAll, accepted]
    rcases judge_cases b w req with ⟨hvalid, -, -, hverify, -, hrefs⟩ | ⟨hvalid, -, -, hno, hrefs⟩ |
      ⟨hvalid, -, hrefs⟩
    · rw [if_pos hvalid]
      refine ⟨fun u hu hplain hname => ?_, ih hrest (hs.applyTxn req.txn) ?_⟩
      · exact oldMatches_of_verifyUpdate h hs hplain hname (hverify u hu)
      · rw [hrefs]
        exact foldl_sameOffHead_new (hsym req List.mem_cons_self) h
    · rw [if_neg (by simp [hvalid])]
      refine ih hrest hs fun name hname => ?_
      rw [hrefs]
      exact (foldl_unchanged_sameOffHead (requestChanges_eq_false hno).2.2 name hname).trans
        (h name hname)
    · rw [if_neg (by simp [hvalid])]
      exact ih hrest hs (by rw [hrefs]; exact h)

/-- Every committed claim was judged against the refs of the log before it. -/
def JudgedOnto : List Generation → Prop
  | [] => True
  | g :: gens => JudgedOnto gens ∧ ∀ o ∈ g.origin,
      o.attempt.basis.refs = .new (foldRefs .fresh (committedEntries gens))

omit [Text.CharTables] in
theorem JudgedOnto.suffix {newer gens : List Generation} (h : JudgedOnto (newer ++ gens)) :
    JudgedOnto gens := by
  induction newer with
  | nil => exact h
  | cons g newer ih => exact ih h.1

variable {cfg : Config}

theorem Origin.Wrote.swaps {o : Origin} (h : o.Wrote) (hjob : o.job.portable) {s : RefState}
    (hs : s.NonNull) (hrefs : o.attempt.basis.refs = .new s) :
    Replay.Along RefState.applyTxn RefState.Swaps s (o.slot.bytes.filterMap LogEntry.txn) := by
  obtain ⟨clock, es, hes, -, hbytes⟩ := h
  rw [hbytes, filterMap_txn_withNonce]
  cases hb : o.job.isBatch with
  | true =>
    cases hj : o.job with
    | batch reqs =>
      rw [hj] at hes hjob
      cases hes
      refine along_buildEntries _ _ _ _ (judgeAll_swaps _ (fun r hr u hu hsym => ?_) hs fun _ _ => ?_)
      · have hreq := List.all_eq_true.mp hjob r hr
        simp only [Bool.and_eq_true] at hreq
        exact symbolic_names_head (List.all_eq_true.mp hreq.1 u hu) hsym
      · change o.attempt.basis.refs.value _ = _
        rw [hrefs]
    | _ =>
      rw [hj] at hb
      cases hb
  | false =>
    have hnone : es.filterMap LogEntry.txn = [] :=
      List.filterMap_eq_nil_iff.mpr fun e he => (Job.entries_of_not_batch hes hb e he).1
    rw [hnone]
    trivial

/-- The transactions of a log whose claims were judged onto it are swaps. -/
theorem Chain.swaps {gens : List Generation} (h : Chain cfg gens) (hjudged : JudgedOnto gens)
    (hportable : ∀ g ∈ gens, ∀ o ∈ g.origin, o.job.portable) :
    Replay.Along RefState.applyTxn RefState.Swaps .fresh
      ((committedEntries gens).filterMap LogEntry.txn) := by
  induction h with
  | created access now writer version => trivial
  | append older o now m version basis wrote burned edit newer ih =>
    rw [committedEntries, List.filterMap_append, Replay.along_append]
    refine ⟨ih hjudged.1 fun g hg => hportable g (List.mem_cons_of_mem _ hg), ?_⟩
    exact wrote.swaps (hportable _ List.mem_cons_self o rfl)
      (RefState.nonNull_fresh.foldRefs _) (hjudged.2 o rfl)
  | rewrite older job policy writer now m version edit folded newer ih =>
    rw [committedEntries]
    simpa using ih hjudged.1 fun g hg => hportable g (List.mem_cons_of_mem _ hg)

end Batches

namespace Cluster

section Runs

variable [Text.CharTables] {cfg : Config} {s s' : Cluster}

/-- A claim is committed only while its basis is the newest manifest. -/
theorem Ok.judgedOnto (h : Ok cfg s) (h' : Ok cfg s') {d : Deed}
    (hstep : Cluster.step cfg s d = some s') (hj : JudgedOnto s.world.gens) : JudgedOnto s'.world.gens := by
  rcases step_world hstep with heq | ⟨a, hw, -⟩
  · rwa [heq]
  · rcases step_gens hw with heq | ⟨g, heq⟩
    · rwa [heq]
    · rw [heq]
      refine ⟨hj, fun o ho => ?_⟩
      obtain ⟨current, gens, hgens, -⟩ := h.world.inv.current
      have hchain := h'.world.inv.chain
      rw [heq, hgens] at hchain
      have hclaimed : o ∈ s'.world.claims :=
        h'.world.inv.claimed o ⟨g, heq ▸ List.mem_cons_self, ho⟩
      obtain ⟨refs, hrefs, -, hexact⟩ := h.claimed hw hclaimed
      rw [hrefs, hexact current (by rw [hgens]; rfl) (hchain.basis ho).symm]

theorem judgedOnto_run {access : Option RepoAccess} {now : Timestamp} {writer : String}
    {deeds : List Deed}
    (hsound : Sound cfg (created (createdManifest access now writer)) deeds)
    (hrun : Runs.run (Cluster.step cfg) (created (createdManifest access now writer)) deeds =
      some s) : Ok cfg s ∧ JudgedOnto s.world.gens := by
  refine Runs.invariant (I := fun s => Ok cfg s ∧ JudgedOnto s.world.gens)
    (fun s d s' h hd hstep => ?_) hrun hsound ⟨ok_created cfg access now writer, trivial, ?_⟩
  · have hok := h.1.step hd hstep
    exact ⟨hok, h.1.judgedOnto hok hstep h.2⟩
  · rintro o ⟨⟩

/-- Every update of a ref in the log names the value that the entries before it leave. -/
theorem committed_updates_swap {access : Option RepoAccess} {now : Timestamp} {writer : String}
    {deeds : List Deed}
    (hsound : Sound cfg (created (createdManifest access now writer)) deeds)
    (hrun : Runs.run (Cluster.step cfg) (created (createdManifest access now writer)) deeds =
      some s) {before after : List LogEntry} {e : LogEntry}
    (hsplit : committedEntries s.world.gens = before ++ e :: after) :
    ∀ t ∈ e.txn, (foldRefs .fresh before).Swaps t := by
  intro t ht
  obtain ⟨hok, hjudged⟩ := judgedOnto_run hsound hrun
  have hswaps := hok.world.inv.chain.swaps hjudged fun g hg o ho =>
    hok.world.claims o (hok.world.inv.claimed o ⟨g, hg, ho⟩)
  rw [hsplit, List.filterMap_append, List.filterMap_cons_some ht] at hswaps
  exact hswaps.of_append

end Runs

section Pushes

attribute [local instance] Text.asciiTables

/-- The second push to a branch names what the first one left. -/
theorem committed_updates_swap_pushes :
    ∃ s before e after t, runNew pushes = some s ∧
      committedEntries s.world.gens = before ++ e :: after ∧ before ≠ [] ∧ e.txn = some t ∧
      t.updates = [⟨"refs/heads/main", oidA, oidB, ""⟩] ∧ (foldRefs .fresh before).Swaps t := by
  have hrun : ((runNew pushes).bind fun s => (committedEntries s.world.gens)[1]?.bind fun e =>
      e.txn.map RefTransaction.updates) = some [⟨"refs/heads/main", oidA, oidB, ""⟩] := by
    decide +kernel
  obtain ⟨s, hs, hrest⟩ := Option.bind_eq_some_iff.mp hrun
  obtain ⟨e, he, hrest⟩ := Option.bind_eq_some_iff.mp hrest
  obtain ⟨t, ht, hupdates⟩ := Option.map_eq_some_iff.mp hrest
  obtain ⟨hlen, hget⟩ := List.getElem?_eq_some_iff.mp he
  have hsplit : committedEntries s.world.gens =
      (committedEntries s.world.gens).take 1 ++ e :: (committedEntries s.world.gens).drop 2 := by
    rw [← hget, ← List.drop_eq_getElem_cons hlen, List.take_append_drop]
  refine ⟨s, _, e, _, t, hs, hsplit, ?_, ht, hupdates, ?_⟩
  · exact fun hnil => by simp [List.take_eq_nil_iff.mp hnil |>.resolve_left (by simp)] at hlen
  · exact committed_updates_swap (by decide +kernel) hs hsplit t ht

/-- A push to a branch, one to HEAD by its name, and one to the branch again. -/
def headSwap : List Deed :=
  headPush ++ publish 0 3 "c" [updating "refs/heads/main" oidB "" ]

/-- The third push names the value that git wrote through HEAD, which is not in the log. -/
theorem committed_updates_swap_head_push :
    ∃ s before e after t, runNew headSwap = some s ∧
      committedEntries s.world.gens = before ++ e :: after ∧ e.txn = some t ∧
      ¬(foldRefs .fresh before).Swaps t := by
  have hrun : ((runNew headSwap).bind fun s => (committedEntries s.world.gens)[2]?.bind fun e =>
      e.txn.map fun t => (t.updates, (foldRefs .fresh ((committedEntries s.world.gens).take 2)).refs.find?
        "refs/heads/main")) = some ([⟨"refs/heads/main", oidB, "", ""⟩], some oidA) := by
    decide +kernel
  obtain ⟨s, hs, hrest⟩ := Option.bind_eq_some_iff.mp hrun
  obtain ⟨e, he, hrest⟩ := Option.bind_eq_some_iff.mp hrest
  obtain ⟨t, ht, heq⟩ := Option.map_eq_some_iff.mp hrest
  obtain ⟨hlen, hget⟩ := List.getElem?_eq_some_iff.mp he
  simp only [Prod.mk.injEq] at heq
  refine ⟨s, (committedEntries s.world.gens).take 2, e, (committedEntries s.world.gens).drop 3, t,
    hs, ?_, ht, fun hswaps => ?_⟩
  · rw [← hget, ← List.drop_eq_getElem_cons hlen, List.take_append_drop]
  · have hold := hswaps ⟨"refs/heads/main", oidB, "", ""⟩ (by simp [heq.1]) (by decide) (by decide)
    rw [RefState.oldMatches, heq.2] at hold
    revert hold
    decide

end Pushes

end Cluster

end Walgit
