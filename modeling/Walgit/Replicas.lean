import Mathlib.Data.List.Nodup
import Walgit.Batch
import Walgit.RefEffects

/-!
# Copies of the refs

The writer applies its transactions with `git update-ref`, a replica rewrites
`packed-refs` (`apply_ref_txns_offline`), and the log reader folds them in memory
(`replay_refs`). This module says for which transactions the three agree.
-/
namespace Walgit

/-- Where a replay of the log stops. -/
inductive Cut where
  | time (limit : ℕ)
  | seq (limit : ℕ)
  deriving DecidableEq, Repr

def Cut.stops (cut : Cut) (e : LogEntry) : Bool :=
  match cut with
  | .time limit => (e.createdAt.map Timestamp.toSystem).any fun t => limit < t
  | .seq limit => limit < e.seq

namespace RefState

def replayUpdate (s : RefState) (u : RefUpdate) : RefState :=
  if u.newSymbolicTarget ≠ "" then
    if u.name = "HEAD" then { s with headTarget := u.newSymbolicTarget } else s
  else if u.newOid = "" || u.newOid.toList.all (· == '0') then
    { s with refs := s.refs.erase u.name }
  else { s with refs := s.refs.insert u.name u.newOid }

/-- The loop of `replay_refs`: the refs and the last entry before the cut. -/
def replayRefs (cut : Cut) : RefState → ℕ → List LogEntry → RefState × ℕ
  | s, lastSeq, [] => (s, lastSeq)
  | s, lastSeq, e :: es =>
    if cut.stops e then (s, lastSeq)
    else
      replayRefs cut ((e.txn.map fun t => t.updates.foldl replayUpdate s).getD s) e.seq es

/-- A whole ref set written over the local one; an empty target leaves the HEAD file. -/
def loadRefSnapshot (disk snapshot : RefState) : RefState where
  refs := snapshot.refs
  headTarget := if snapshot.headTarget = "" then disk.headTarget else snapshot.headTarget

section Offline

variable [Text.CharTables]

def offlineUpdate (s : RefState) (u : RefUpdate) : Except String RefState := do
  validateRefUpdate u
  if u.newSymbolicTarget ≠ "" then
    if u.name = "HEAD" then pure { s with headTarget := u.newSymbolicTarget } else pure s
  else if u.newOid = "" || u.newOid.toList.all (· == '0') then
    pure { s with refs := s.refs.erase u.name }
  else pure { s with refs := s.refs.insert u.name u.newOid }

def applyRefTxnsOffline (disk : RefState) (ts : List RefTransaction) : Except String RefState := do
  let snapshot ← (ts.flatMap RefTransaction.updates).foldlM offlineUpdate disk
  pure (disk.loadRefSnapshot snapshot)

end Offline

theorem replayUpdate_eq (s : RefState) (u : RefUpdate) : s.replayUpdate u = s.applyUpdate u := by
  unfold replayUpdate applyUpdate RefUpdate.symbolic isNullOid
  by_cases hs : u.newSymbolicTarget = "" <;> by_cases hn : u.newOid = "" <;> simp [hs, hn]

/-- A replayed entry means what the committed log means. -/
theorem replayRefs_singleton {cut : Cut} {e : LogEntry} {t : RefTransaction} (s : RefState)
    (lastSeq : ℕ) (ht : e.txn = some t) (hcut : cut.stops e = false) :
    replayRefs cut s lastSeq [e] = (s.applyTxn t, e.seq) := by
  have hfold : t.updates.foldl replayUpdate s = t.updates.foldl applyUpdate s :=
    congrArg (fun f => t.updates.foldl f s) (funext fun s => funext fun u => replayUpdate_eq s u)
  simp [replayRefs, hcut, ht, hfold, applyTxn]

/-- The cell `git update-ref` writes; with a detached HEAD its own file, which is no ref. -/
def gitWrite (s : RefState) (u : RefUpdate) : Option (Option String × Option String) :=
  if s.headTarget = "" && u.name = "HEAD" && !isNullOid u.newOid then none
  else some (some (s.resolve u.name), u.value)

theorem cells_updateRef (s : RefState) (u : RefUpdate) :
    (s.updateRef u).cells = Overwrite.run s.cells (s.gitWrite u).toList ∧
      (s.updateRef u).headTarget = s.headTarget := by
  unfold updateRef gitWrite RefUpdate.value
  refine ⟨?_, by split_ifs <;> rfl⟩
  split_ifs <;> simp_all
  all_goals
    funext k
    cases k with
    | none => simp [cells, Overwrite.apply]
    | some name => simp [cells, Overwrite.apply, Function.update_apply]

theorem gitWrite_congr {s s' : RefState} (h : s'.headTarget = s.headTarget) :
    s'.gitWrite = s.gitWrite := by
  funext u
  simp only [gitWrite, resolve, h]

theorem cells_updateRefs (s : RefState) (us : List RefUpdate) :
    (us.foldl updateRef s).cells = Overwrite.run s.cells (us.filterMap s.gitWrite) := by
  induction us generalizing s with
  | nil => rfl
  | cons u us ih =>
    obtain ⟨hcells, htarget⟩ := cells_updateRef s u
    rw [List.foldl_cons, ih, hcells, gitWrite_congr htarget, ← Overwrite.run_append]
    cases hw : s.gitWrite u <;> simp [hw]

/-- `git update-ref` takes the plain updates: one for each ref, and room for every new one. -/
def gitAccepts (s : RefState) (t : RefTransaction) : Bool :=
  let plain := t.updates.filter RefUpdate.plain
  let names := plain.map fun u => s.resolve u.name
  decide names.Nodup && (plain.filter fun u => !isNullOid u.newOid).all fun u =>
    s.available names (s.resolve u.name)

/-- A plain update of HEAD that changes nothing, neither under HEAD nor under its target. -/
def headSettled (s : RefState) (u : RefUpdate) : Bool :=
  (s.headTarget = "" && isNullOid u.newOid) ||
    (s.refs.find? "HEAD" = u.value && s.refs.find? (s.resolve "HEAD") = u.value)

theorem foldl_symbolic_refs (s : RefState) {us : List RefUpdate} (h : ∀ u ∈ us, u.symbolic) :
    (us.foldl applyUpdate s).refs = s.refs := by
  refine SortedMap.ext_find? fun name => ?_
  induction us generalizing s with
  | nil => rfl
  | cons u us ih =>
    have hp : u.plain = false := by simp [RefUpdate.plain, h u List.mem_cons_self]
    rw [List.foldl_cons, ih _ fun v hv => h v (List.mem_cons_of_mem u hv), applyUpdate_find?, hp]
    simp

section Updates

variable {s : RefState} {us : List RefUpdate}

theorem write_of_plain {u : RefUpdate} (h : u.plain) : u.write = some (some u.name, u.value) := by
  have hs : u.symbolic = false := by simpa [RefUpdate.plain] using h
  simp only [RefUpdate.write, hs, RefUpdate.value, Bool.false_eq_true, if_false]
  split_ifs <;> rfl

theorem gitWrite_eq {u : RefUpdate} {name : String} {v : Option String}
    (h : s.gitWrite u = some (some name, v)) : s.resolve u.name = name ∧ u.value = v := by
  simp only [gitWrite] at h
  split_ifs at h
  simpa using h

theorem resolve_of_ne {name : String} (h : name ≠ "HEAD") : s.resolve name = name := by
  simp [resolve, h]

theorem gitWrite_of_ne {u : RefUpdate} (h : u.name ≠ "HEAD") :
    s.gitWrite u = some (some u.name, u.value) := by
  simp [gitWrite, h, resolve]

/-- Refs that plain updates of distinct refs write, as git writes them. -/
theorem updateRefs_written (hnodup : us.Pairwise fun u v => s.resolve u.name ≠ s.resolve v.name)
    {u : RefUpdate} (hu : u ∈ us) {name : String} {v : Option String}
    (hw : s.gitWrite u = some (some name, v)) :
    (us.foldl updateRef s).refs.find? name = v := by
  have hcell := congrFun (cells_updateRefs s us) (some name)
  rw [Overwrite.run_filterMap_of_mem (hnodup.imp ?_) hu hw] at hcell
  · exact hcell
  · rintro a b hne ⟨x, vx⟩ hx ⟨y, vy⟩ hy heq
    cases x with
    | none => simp only [gitWrite] at hx; split_ifs at hx; simp at hx
    | some x =>
      obtain rfl : some x = y := heq
      exact hne ((gitWrite_eq hx).1.trans (gitWrite_eq hy).1.symm)

theorem updateRefs_untouched {name : String}
    (h : ∀ u ∈ us, ∀ v, s.gitWrite u ≠ some (some name, v)) :
    (us.foldl updateRef s).refs.find? name = s.refs.find? name :=
  (congrFun (cells_updateRefs s us) (some name)).trans (Overwrite.run_filterMap_untouched h)

/-- The same refs as the log means them. -/
theorem applyUpdates_written (hp : ∀ u ∈ us, u.plain)
    (hnodup : us.Pairwise fun u v => s.resolve u.name ≠ s.resolve v.name) {u : RefUpdate}
    (hu : u ∈ us) : (us.foldl applyUpdate s).refs.find? u.name = u.value := by
  have hcell := congrFun (cells_applyUpdates s us) (some u.name)
  rw [Overwrite.run_filterMap_of_mem (hnodup.imp_of_mem ?_) hu (write_of_plain (hp u hu))] at hcell
  · exact hcell
  · intro a b ha hb hne x hx y hy heq
    rw [write_of_plain (hp a ha), Option.some.injEq] at hx
    rw [write_of_plain (hp b hb), Option.some.injEq] at hy
    subst hx
    subst hy
    exact hne (congrArg s.resolve (Option.some.inj heq))

theorem applyUpdates_untouched (hp : ∀ u ∈ us, u.plain) {name : String}
    (h : ∀ u ∈ us, u.name ≠ name) :
    (us.foldl applyUpdate s).refs.find? name = s.refs.find? name := by
  refine (congrFun (cells_applyUpdates s us) (some name)).trans
    (Overwrite.run_filterMap_untouched fun u hu v hw => ?_)
  rw [write_of_plain (hp u hu)] at hw
  exact h u hu (by simpa using (congrArg (fun w => w.map Prod.fst) hw))

/-- Plain updates leave HEAD's target alone in both copies. -/
theorem plain_headTarget (hp : ∀ u ∈ us, u.plain) :
    (us.foldl updateRef s).cells none = (us.foldl applyUpdate s).cells none := by
  rw [cells_updateRefs, cells_applyUpdates,
    Overwrite.run_filterMap_untouched (w := s.gitWrite) fun u _ v hw => ?_,
    Overwrite.run_filterMap_untouched fun u hu v hw => ?_]
  · rw [write_of_plain (hp u hu)] at hw
    simp at hw
  · simp only [gitWrite] at hw
    split_ifs at hw
    simp at hw

theorem eq_of_resolve (hnodup : us.Pairwise fun u v => s.resolve u.name ≠ s.resolve v.name)
    {u v : RefUpdate} (hu : u ∈ us) (hv : v ∈ us) (h : s.resolve u.name = s.resolve v.name) :
    u = v := by
  have hmap : (us.map fun u => s.resolve u.name).Nodup := List.pairwise_map.mpr hnodup
  exact List.inj_on_of_nodup_map hmap hu hv h

/-- The branch behind HEAD and HEAD itself, when HEAD is updated and points at a branch. -/
theorem updates_behind_head (hp : ∀ u ∈ us, u.plain)
    (hnodup : us.Pairwise fun u v => s.resolve u.name ≠ s.resolve v.name)
    (hsym : s.headTarget ≠ "") (hself : s.headTarget ≠ "HEAD") {u : RefUpdate} (hu : u ∈ us)
    (hname : u.name = "HEAD") :
    (us.foldl updateRef s).refs.find? "HEAD" = s.refs.find? "HEAD" ∧
      (us.foldl updateRef s).refs.find? s.headTarget = u.value ∧
      (us.foldl applyUpdate s).refs.find? s.headTarget = s.refs.find? s.headTarget := by
  have hresolve : s.resolve "HEAD" = s.headTarget := by simp [resolve, hsym]
  refine ⟨updateRefs_untouched fun v hv x hw => ?_, updateRefs_written hnodup hu ?_,
    applyUpdates_untouched hp fun v hv hvn => ?_⟩
  · have hr := (gitWrite_eq hw).1
    by_cases hvn : v.name = "HEAD"
    · rw [hvn, hresolve] at hr
      exact hself hr
    · exact hvn ((resolve_of_ne hvn).symm.trans hr)
  · simp [gitWrite, hname, hresolve, hsym]
  · have hr : s.resolve v.name = s.resolve u.name := by
      rw [hvn, hname, hresolve, resolve_of_ne hself]
    rw [eq_of_resolve hnodup hv hu hr, hname] at hvn
    exact hself hvn.symm

/-- The same when HEAD is detached: git then writes no ref, and nothing else writes HEAD. -/
theorem updates_detached_head
    (hnodup : us.Pairwise fun u v => s.resolve u.name ≠ s.resolve v.name)
    (hempty : s.headTarget = "") {u : RefUpdate} (hu : u ∈ us) (hname : u.name = "HEAD")
    (hset : isNullOid u.newOid = false) :
    (us.foldl updateRef s).refs.find? "HEAD" = s.refs.find? "HEAD" := by
  refine updateRefs_untouched fun v hv x hw => ?_
  have hresolve : s.resolve "HEAD" = "HEAD" := by simp [resolve, hempty]
  have hr : s.resolve v.name = s.resolve u.name := by
    rw [(gitWrite_eq hw).1, hname, hresolve]
  obtain rfl := eq_of_resolve hnodup hv hu hr
  simp [gitWrite, hempty, hname, hset] at hw

/-- An update of HEAD that changes nothing leaves both copies the same where it writes. -/
theorem updates_settled_head (hp : ∀ u ∈ us, u.plain)
    (hnodup : us.Pairwise fun u v => s.resolve u.name ≠ s.resolve v.name)
    (hself : s.headTarget ≠ "HEAD") {u : RefUpdate} (hu : u ∈ us) (hname : u.name = "HEAD")
    (hset : s.headSettled u) {n : String} (hn : n = "HEAD" ∨ n = s.resolve "HEAD") :
    (us.foldl updateRef s).refs.find? n = (us.foldl applyUpdate s).refs.find? n := by
  have hlog : (us.foldl applyUpdate s).refs.find? "HEAD" = u.value :=
    hname ▸ applyUpdates_written hp hnodup hu
  by_cases hempty : s.headTarget = ""
  · have hresolve : s.resolve "HEAD" = "HEAD" := by simp [resolve, hempty]
    obtain rfl : n = "HEAD" := hn.elim id fun h => h.trans hresolve
    rw [hlog]
    cases hnull : isNullOid u.newOid with
    | true =>
      refine updateRefs_written hnodup hu ?_
      simp [gitWrite, hname, hresolve, hnull]
    | false =>
      rw [updates_detached_head hnodup hempty hu hname hnull]
      simp only [headSettled, hnull, Bool.and_false, Bool.false_or, Bool.and_eq_true,
        decide_eq_true_eq] at hset
      exact hset.1
  · have hresolve : s.resolve "HEAD" = s.headTarget := by simp [resolve, hempty]
    obtain ⟨hhead, htarget, hbranch⟩ := updates_behind_head hp hnodup hempty hself hu hname
    simp only [headSettled, hempty, decide_false, Bool.false_and, Bool.false_or, Bool.and_eq_true,
      decide_eq_true_eq, hresolve] at hset
    rcases hn with rfl | rfl
    · rw [hhead, hlog, hset.1]
    · rw [hresolve, htarget, hbranch, hset.2]

/-- Any other ref is written by its own update in both copies. -/
theorem updates_beside_head (hp : ∀ u ∈ us, u.plain)
    (hnodup : us.Pairwise fun u v => s.resolve u.name ≠ s.resolve v.name) {n : String}
    (hhead : n ≠ "HEAD") (htarget : n ≠ s.resolve "HEAD") :
    (us.foldl updateRef s).refs.find? n = (us.foldl applyUpdate s).refs.find? n := by
  by_cases hn : ∃ v ∈ us, v.name = n
  · obtain ⟨v, hv, rfl⟩ := hn
    rw [updateRefs_written hnodup hv (gitWrite_of_ne hhead), applyUpdates_written hp hnodup hv]
  · rw [updateRefs_untouched fun v hv x hw => ?_,
      applyUpdates_untouched hp fun v hv heq => hn ⟨v, hv, heq⟩]
    have hr := (gitWrite_eq hw).1
    by_cases hvn : v.name = "HEAD"
    · exact htarget (by rw [← hr, hvn])
    · exact hn ⟨v, hv, (resolve_of_ne hvn).symm.trans hr⟩

/-- Git and the log agree on plain updates of distinct refs exactly if an update of HEAD
changes nothing. -/
theorem updateRefs_eq_iff (hp : ∀ u ∈ us, u.plain)
    (hnodup : us.Pairwise fun u v => s.resolve u.name ≠ s.resolve v.name)
    (hself : s.headTarget = "HEAD" → ∀ u ∈ us, u.name ≠ "HEAD") :
    us.foldl updateRef s = us.foldl applyUpdate s ↔
      ∀ u ∈ us, u.name = "HEAD" → s.headSettled u := by
  constructor
  · intro heq u hu hname
    have hlog : (us.foldl applyUpdate s).refs.find? "HEAD" = u.value :=
      hname ▸ applyUpdates_written hp hnodup hu
    by_cases hempty : s.headTarget = ""
    · cases hnull : isNullOid u.newOid with
      | true => simp [headSettled, hempty, hnull]
      | false =>
        have hgit := updates_detached_head hnodup hempty hu hname hnull
        rw [heq, hlog] at hgit
        simp [headSettled, hempty, hnull, resolve, hgit]
    · obtain ⟨hhead, htarget, hbranch⟩ := updates_behind_head hp hnodup hempty
        (fun h => hself h u hu hname) hu hname
      rw [heq, hlog] at hhead
      rw [heq, hbranch] at htarget
      simp [headSettled, hempty, resolve, hhead, htarget]
  · intro hsettled
    by_cases hhead : ∃ u ∈ us, u.name = "HEAD"
    · obtain ⟨u, hu, hname⟩ := hhead
      refine cells_injective (funext fun k => ?_)
      cases k with
      | none => exact plain_headTarget hp
      | some n =>
        change (us.foldl updateRef s).refs.find? n = (us.foldl applyUpdate s).refs.find? n
        by_cases hother : n = "HEAD" ∨ n = s.resolve "HEAD"
        · exact updates_settled_head hp hnodup (fun h => hself h u hu hname) hu hname
            (hsettled u hu hname) hother
        · rw [not_or] at hother
          exact updates_beside_head hp hnodup hother.1 hother.2
    · refine foldl_updateRef_eq s fun u hu => ⟨hp u hu, fun hname => hhead ⟨u, hu, hname⟩⟩

end Updates

variable [Text.CharTables]

theorem offlineUpdate_eq (s : RefState) {u : RefUpdate} (h : (validateRefUpdate u).isOk) :
    s.offlineUpdate u = .ok (s.applyUpdate u) := by
  have hok : validateRefUpdate u = .ok () := by
    cases hv : validateRefUpdate u with
    | ok r => rfl
    | error e => simp [hv, Except.isOk, Except.toBool] at h
  rw [← replayUpdate_eq]
  unfold offlineUpdate replayUpdate
  rw [hok]
  simp only [bind, Except.bind, pure, Except.pure]
  split_ifs <;> rfl

/-- A replica follows the log through valid transactions. -/
theorem applyRefTxnsOffline_singleton (s : RefState) {t : RefTransaction} (h : t.valid) :
    s.applyRefTxnsOffline [t] = .ok (s.applyTxn t) := by
  have hfold : ∀ us : List RefUpdate, (∀ u ∈ us, (validateRefUpdate u).isOk) → ∀ r : RefState,
      us.foldlM offlineUpdate r = .ok (us.foldl applyUpdate r) := by
    intro us
    induction us with
    | nil => intro _ _; rfl
    | cons u us ih =>
      intro hus r
      rw [List.foldlM_cons, offlineUpdate_eq r (hus u List.mem_cons_self)]
      exact ih (fun v hv => hus v (List.mem_cons_of_mem u hv)) _
  have hvalid : ∀ u ∈ t.updates, (validateRefUpdate u).isOk := List.all_eq_true.mp h
  have hload : s.loadRefSnapshot (s.applyTxn t) = s.applyTxn t := by
    have htarget := applyTxn_headTarget s t
    cases hnew : s.applyTxn t with
    | mk refs headTarget =>
      rw [hnew] at htarget
      simp only [loadRefSnapshot, mk.injEq, true_and, ite_eq_right_iff] at htarget ⊢
      intro hempty
      rw [hempty] at htarget ⊢
      cases hmoved : t.target with
      | none => simpa [hmoved] using htarget.symm
      | some target =>
        -- A symbolic update has a target.
        obtain ⟨u, hu, rfl⟩ := Option.map_eq_some_iff.mp hmoved
        have hsym := List.find?_some hu
        simp [hmoved, RefUpdate.symbolic] at hsym htarget
        exact absurd htarget hsym.1
  simp only [applyRefTxnsOffline, List.flatMap_cons, List.flatMap_nil, List.append_nil,
    hfold _ hvalid, bind, Except.bind, pure, Except.pure]
  exact congrArg Except.ok hload

theorem applyRefTxnsOffline_eq (s : RefState) {ts : List RefTransaction} (h : ∀ t ∈ ts, t.valid) :
    s.applyRefTxnsOffline ts = .ok (s.applyTxns ts) := by
  -- The updates of all transactions, as one.
  set t : RefTransaction := ⟨ts.flatMap RefTransaction.updates, [], true⟩ with ht
  have hvalid : t.valid := by
    simp only [RefTransaction.valid, List.all_eq_true, ht, List.mem_flatMap] at h ⊢
    rintro u ⟨t, hmem, hu⟩
    exact h t hmem u hu
  have hsame : s.applyRefTxnsOffline ts = s.applyRefTxnsOffline [t] := by
    simp [applyRefTxnsOffline, ht]
  rw [hsame, applyRefTxnsOffline_singleton s hvalid, applyTxns_eq]
  rfl

theorem applyRefTxn_of_valid (s : RefState) {t : RefTransaction} (h : t.valid) :
    s.applyRefTxn t = if s.gitAccepts t then
      some ((t.updates.filter RefUpdate.symbolic).foldl applyUpdate
        ((t.updates.filter RefUpdate.plain).foldl updateRef s)) else none := by
  simp only [applyRefTxn, gitAccepts, h, Bool.not_true, Bool.false_eq_true, if_false]
  have hchecks : ∀ (distinct room : Bool) (r : RefState),
      (if !distinct then none else if !room then none else some r) =
        if distinct && room then some r else none := by
    intro distinct room r
    cases distinct <;> cases room <;> rfl
  exact hchecks _ _ _

/-- The writer's copy after a transaction git accepts is what the log means exactly if a plain
update of HEAD changes nothing. -/
theorem applyRefTxn_eq_applyTxn_iff {s : RefState} {t : RefTransaction} (hvalid : t.valid)
    (hself : s.headTarget = "HEAD" → t.plainHead = false) :
    s.applyRefTxn t = some (s.applyTxn t) ↔
      s.gitAccepts t ∧ ∀ u ∈ t.updates, u.plainHead → s.headSettled u := by
  rw [applyRefTxn_of_valid s hvalid]
  by_cases haccepts : s.gitAccepts t
  · set plain := t.updates.filter RefUpdate.plain with hplain
    have hp : ∀ u ∈ plain, u.plain := fun u hu => (List.mem_filter.mp hu).2
    have hnodup : plain.Pairwise fun u v => s.resolve u.name ≠ s.resolve v.name := by
      simp only [gitAccepts, Bool.and_eq_true, decide_eq_true_eq] at haccepts
      exact List.pairwise_map.mp haccepts.1
    have hhead : ∀ u, u ∈ plain ∧ u.name = "HEAD" ↔ u ∈ t.updates ∧ u.plainHead := by
      intro u
      simp [hplain, RefUpdate.plainHead, RefUpdate.plain, and_assoc]
    have hown : s.headTarget = "HEAD" → ∀ u ∈ plain, u.name ≠ "HEAD" := by
      intro h u hu hname
      obtain ⟨hmem, hph⟩ := (hhead u).mp ⟨hu, hname⟩
      exact List.any_eq_false.mp (hself h) u hmem hph
    have hsym : ∀ u ∈ t.updates.filter RefUpdate.symbolic, u.symbolic :=
      fun u hu => (List.mem_filter.mp hu).2
    have hfold : (t.updates.filter RefUpdate.symbolic).foldl applyUpdate
        (plain.foldl updateRef s) = s.applyTxn t ↔
        plain.foldl updateRef s = plain.foldl applyUpdate s := by
      rw [applyTxn, ← foldl_plain_symbolic s t.updates]
      refine ⟨fun h => cells_injective (funext fun k => ?_), fun h => by rw [h]⟩
      cases k with
      | none => exact plain_headTarget hp
      | some n =>
        have hrefs := congrArg RefState.refs h
        rw [foldl_symbolic_refs _ hsym, foldl_symbolic_refs _ hsym] at hrefs
        exact congrArg (fun m => m.find? n) hrefs
    rw [if_pos haccepts, Option.some.injEq, hfold, updateRefs_eq_iff hp hnodup hown]
    simp only [haccepts, true_and]
    exact ⟨fun h u hu hph => h u ((hhead u).mpr ⟨hu, hph⟩).1 ((hhead u).mpr ⟨hu, hph⟩).2,
      fun h u hu hname => h u ((hhead u).mp ⟨hu, hname⟩).1 ((hhead u).mp ⟨hu, hname⟩).2⟩
  · simp [haccepts]

/-- The writer, a replica and the log reader reach the same refs and the same HEAD exactly if
git accepts the transaction and a plain update of HEAD changes nothing. A HEAD that names
itself has no value to look up, so no checked transaction updates it. -/
theorem copies_agree_iff {s : RefState} {t : RefTransaction} {e : LogEntry} {cut : Cut}
    (hvalid : t.valid) (hself : s.headTarget = "HEAD" → t.plainHead = false)
    (he : e.txn = some t) (hcut : cut.stops e = false) (lastSeq : ℕ) :
    (∃ r, s.applyRefTxn t = some r ∧ s.applyRefTxnsOffline [t] = .ok r ∧
      (replayRefs cut s lastSeq [e]).1 = r) ↔
      s.gitAccepts t ∧ ∀ u ∈ t.updates, u.plainHead → s.headSettled u := by
  rw [← applyRefTxn_eq_applyTxn_iff hvalid hself, applyRefTxnsOffline_singleton s hvalid,
    replayRefs_singleton s lastSeq he hcut]
  constructor
  · rintro ⟨r, hwriter, hreplica, -⟩
    rw [hwriter, Except.ok.inj hreplica]
  · intro h
    exact ⟨s.applyTxn t, h, rfl, rfl⟩

end RefState

section Head

attribute [local instance] Text.asciiTables

def oidA : String := "aaaaaaaaaaaaaaaaaaaaaaaaaaaaaaaaaaaaaaaa"

def oidB : String := "bbbbbbbbbbbbbbbbbbbbbbbbbbbbbbbbbbbbbbbb"

/-- A repository whose default branch is at one commit. -/
def onMain : RefState := ⟨.ofList [("refs/heads/main", oidA)], "refs/heads/main"⟩

/-- A push that moves the default branch and creates another one. -/
theorem copies_agree_branches :
    let t : RefTransaction := ⟨[⟨"refs/heads/main", oidA, oidB, ""⟩, ⟨"refs/heads/dev", "", oidB, ""⟩],
      [], true⟩
    (verifyTxn t (.new onMain)).allOk ∧ ∃ r, onMain.applyRefTxn t = some r ∧
      onMain.applyRefTxnsOffline [t] = .ok r ∧
      (RefState.replayRefs (.seq 1) onMain 0 [{ seq := 1, txn := some t }]).1 = r := by
  intro t
  exact ⟨by decide, (RefState.copies_agree_iff (by decide) (by decide) rfl
    rfl 0).mpr (by decide)⟩

/-- An update of the name HEAD moves the branch for the writer and a ref `HEAD` elsewhere. -/
theorem copies_differ_head :
    let t : RefTransaction := ⟨[⟨"HEAD", oidA, oidB, ""⟩], [], true⟩
    t.valid ∧ (verifyTxn t (.new onMain)).allOk ∧ ¬∃ r, onMain.applyRefTxn t = some r ∧
      onMain.applyRefTxnsOffline [t] = .ok r ∧
      (RefState.replayRefs (.seq 1) onMain 0 [{ seq := 1, txn := some t }]).1 = r := by
  intro t
  refine ⟨by decide, by decide, ?_⟩
  rintro ⟨r, hwriter, -, hreader⟩
  have hne : onMain.applyRefTxn t ≠
      some (RefState.replayRefs (.seq 1) onMain 0 [{ seq := 1, txn := some t }]).1 := by
    decide
  exact hne (hreader ▸ hwriter)

end Head

end Walgit
