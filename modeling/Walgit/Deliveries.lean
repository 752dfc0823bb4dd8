import Walgit.Bridge
import Walgit.Convergence

/-!
# What the cursor promises

Below the cursor every entry was delivered or lies in a gap that was reported, as long as
nothing that a call is about to read is folded into a checkpoint in between.
-/
namespace Walgit

open Replay (between)

namespace Bridges

/-- The entry lies in a gap that some call reported. -/
def Reported (s : Bridges) (n : ℕ) : Prop := ∃ gap ∈ s.gaps, gap.1 ≤ n ∧ n ≤ gap.2

/-- Every sink received the events. -/
def Received (sinks : List ℕ) (s : Bridges) (events : List RefEvent) : Prop :=
  ∀ sink ∈ sinks, ∀ ev ∈ events, (sink, ev) ∈ s.delivered

/-- Every entry between two positions was delivered or reported. -/
def Covered (repo : String) (sinks : List ℕ) (s : Bridges) (a b : ℕ) : Prop :=
  ∀ e ∈ committedEntries s.world.gens, a < e.seq → e.seq ≤ b →
    s.Reported e.seq ∨ s.Received sinks (refsFromEntries repo [e])

/-- What a call read of the cursor is still what that version says. -/
def Known (s : Bridges) (cursor : Option (ℕ × ℕ)) : Prop :=
  ∀ c v, cursor = some (c, v) → v < s.nextVersion ∧ ∀ c', s.cursor = some (c', v) → c' = c

/-- Between the cursor and where a call starts everything was reported. -/
def Skipped (s : Bridges) (start : ℕ) (cursor : Option (ℕ × ℕ)) : Prop :=
  ∀ n, (cursor.map Prod.fst).getD start < n → n ≤ start → s.Reported n

/-- What holds of a call in progress. -/
def CallOk (repo : String) (sinks : List ℕ) (s : Bridges) : CatchUp → Prop
  | .opened m => ∃ g ∈ s.world.gens, g.manifest = m
  | .located head start cursor =>
    s.world.Boundary head ∧ s.Known cursor ∧ s.Skipped start cursor
  | .delivering head start cursor batch pending =>
    s.world.Boundary head ∧ s.Known cursor ∧ s.Skipped start cursor ∧
      (∀ e ∈ committedEntries s.world.gens, start < e.seq → e.seq ≤ head →
        refsFromEntries repo [e] ⊆ batch) ∧
      ∀ sink ∈ sinks, batch ≠ [] → sink ∈ pending ∨ ∀ ev ∈ batch, (sink, ev) ∈ s.delivered

/-- What a call read and delivered covers everything up to its head. -/
theorem covered_head {repo : String} {sinks : List ℕ} {s : Bridges} {head start : ℕ} {cursor : Option (ℕ × ℕ)} {batch : List RefEvent}
    (hcall : s.CallOk repo sinks (.delivering head start cursor batch [])) :
    s.Covered repo sinks start head := by
  obtain ⟨-, -, -, hbatch, hsinks⟩ := hcall
  intro e he hlo hhi
  have hin : refsFromEntries repo [e] ⊆ batch := hbatch e he hlo hhi
  refine Or.inr fun sink hsink ev hev => ?_
  rcases hsinks sink hsink (List.ne_nil_of_mem (hin hev)) with hpending | hall
  · exact absurd hpending List.not_mem_nil
  · exact hall ev (hin hev)

/-- What is covered up to the cursor, what was skipped from there and what is covered after. -/
theorem Covered.join {repo : String} {sinks : List ℕ} {s : Bridges} {a c start head v : ℕ}
    (hold : s.Covered repo sinks a c) (hskip : s.Skipped start (some (c, v)))
    (hnew : s.Covered repo sinks start head) : s.Covered repo sinks a head := by
  intro e he hlo hhi
  rcases Nat.lt_or_ge c e.seq with hc | hc
  · rcases Nat.lt_or_ge start e.seq with hstart | hstart
    · exact hnew e he hstart hhi
    · exact Or.inl (hskip e.seq hc hstart)
  · exact hold e he hlo hc

/-- A later state: more is committed, reported and delivered, and versions are not used twice. -/
structure Extends (s s' : Bridges) : Prop where
  grows : s.world.Grows s'.world
  gaps : s.gaps ⊆ s'.gaps
  delivered : s.delivered ⊆ s'.delivered
  versions : s.nextVersion ≤ s'.nextVersion
  cursor : ∀ c v, s'.cursor = some (c, v) → v < s.nextVersion → s.cursor = some (c, v)

/-- Everything up to the head of a manifest that was captured is in a position reached. -/
theorem boundary_head {w : World} {m : Manifest} (hm : ∃ g ∈ w.gens, g.manifest = m) :
    w.Boundary m.headSeq := by
  obtain ⟨g, hg, rfl⟩ := hm
  exact Or.inr ⟨g, hg, rfl⟩

theorem refsFromEntries_subset {repo : String} {entries : List LogEntry} {e : LogEntry}
    (he : e ∈ entries) : refsFromEntries repo [e] ⊆ refsFromEntries repo entries := by
  intro ev hev
  simp only [refsFromEntries, List.flatMap_cons, List.flatMap_nil, List.append_nil] at hev
  exact List.mem_flatMap_of_mem he hev

section Extends

variable {repo : String} {sinks : List ℕ} {s s' : Bridges}

/-- New entries lie above every position reached before. -/
theorem mem_of_le {w w' : World} (hgrows : w.Grows w') {n : ℕ} (hn : w.Boundary n) {e : LogEntry}
    (he : e ∈ committedEntries w'.gens) (hle : e.seq ≤ n) : e ∈ committedEntries w.gens := by
  obtain ⟨new, hlog, hnew⟩ := hgrows.log
  rw [hlog, List.mem_append] at he
  rcases he with he | he
  · exact he
  · exact absurd (hnew e he n hn) (not_lt.mpr hle)

theorem Extends.reported (h : s.Extends s') {n : ℕ} (hn : s.Reported n) : s'.Reported n := by
  obtain ⟨gap, hgap, hin⟩ := hn
  exact ⟨gap, h.gaps hgap, hin⟩

theorem Extends.received (h : s.Extends s') {events : List RefEvent}
    (hr : s.Received sinks events) : s'.Received sinks events :=
  fun sink hsink ev hev => h.delivered (hr sink hsink ev hev)

theorem Extends.covered (h : s.Extends s') {a b : ℕ} (hb : s.world.Boundary b)
    (hc : s.Covered repo sinks a b) : s'.Covered repo sinks a b := by
  intro e he ha hle
  rcases hc e (mem_of_le h.grows hb he hle) ha hle with hreported | hreceived
  · exact Or.inl (h.reported hreported)
  · exact Or.inr (h.received hreceived)

theorem Extends.known (h : s.Extends s') {cursor : Option (ℕ × ℕ)} (hk : s.Known cursor) :
    s'.Known cursor := by
  intro c v hcursor
  obtain ⟨hlt, hsame⟩ := hk c v hcursor
  exact ⟨hlt.trans_le h.versions, fun c' hc' => hsame c' (h.cursor c' v hc' hlt)⟩

theorem Extends.skipped (h : s.Extends s') {start : ℕ} {cursor : Option (ℕ × ℕ)}
    (hs : s.Skipped start cursor) : s'.Skipped start cursor :=
  fun n hlt hle => h.reported (hs n hlt hle)

/-- What holds of a call goes on to hold while others act. -/
theorem Extends.callOk (h : s.Extends s') {call : CatchUp} (hc : s.CallOk repo sinks call) :
    s'.CallOk repo sinks call := by
  cases call with
  | opened m =>
    obtain ⟨g, hg, hm⟩ := hc
    exact ⟨g, h.grows.gens hg, hm⟩
  | located head start cursor =>
    obtain ⟨hhead, hknown, hskipped⟩ := hc
    exact ⟨h.grows.boundary hhead, h.known hknown, h.skipped hskipped⟩
  | delivering head start cursor batch pending =>
    obtain ⟨hhead, hknown, hskipped, hbatch, hsinks⟩ := hc
    refine ⟨h.grows.boundary hhead, h.known hknown, h.skipped hskipped,
      fun e he hlt hle => hbatch e (mem_of_le h.grows hhead he hle) hlt hle,
      fun sink hsink hne => (hsinks sink hsink hne).imp_right fun hall ev hev =>
        h.delivered (hall ev hev)⟩

/-- A call ends, or goes on to its next step. -/
theorem extends_setCall (s : Bridges) (k : ℕ) (call : Option CatchUp) :
    s.Extends (s.setCall k call) :=
  ⟨.refl _, List.Subset.refl _, List.Subset.refl _, le_rfl, fun _ _ h _ => h⟩

/-- The cursor is written under a new version. -/
theorem extends_cursor (s : Bridges) (calls : ℕ → Option CatchUp) (head : ℕ)
    (origin : Option ℕ) : s.Extends { s with
      calls := calls
      cursor := some (head, s.nextVersion)
      nextVersion := s.nextVersion + 1
      origin := origin } :=
  ⟨.refl _, List.Subset.refl _, List.Subset.refl _, Nat.le_succ _, fun c v hc hlt =>
    absurd hlt (by simp only [Option.some.injEq, Prod.mk.injEq] at hc; omega)⟩

end Extends

section Proofs

variable [Text.CharTables] {cfg : Config} {repo : String} {sinks : List ℕ} {s s' : Bridges}

/-- The invariant. -/
structure Inv (cfg : Config) (repo : String) (sinks : List ℕ) (s : Bridges) : Prop where
  world : Walgit.Inv cfg s.world
  cursor : ∀ c v, s.cursor = some (c, v) → v < s.nextVersion ∧ s.world.Boundary c ∧
    ∃ start, s.origin = some start ∧ s.Covered repo sinks start c
  calls : ∀ k call, s.calls k = some call → s.CallOk repo sinks call

/-- Nothing a call is about to read has been folded since it chose where to start. -/
def unfolded (repo : String) (s : Bridges) : BridgeEvent → Bool
  | .readLog k =>
    match s.calls k with
    | some (.located head start _) =>
      s.world.current.all fun p =>
        (between LogEntry.seq start (min head p.1.checkpointSeq)
          (committedEntries s.world.gens)).all fun e => refsFromEntries repo [e] = []
    | _ => true
  | _ => true

/-- A step that leaves the cursor alone. -/
theorem Inv.extend (h : Inv cfg repo sinks s) (hext : s.Extends s')
    (hworld : Walgit.Inv cfg s'.world) (hcursor : s'.cursor = s.cursor)
    (horigin : s'.origin = s.origin)
    (hcalls : ∀ k call, s'.calls k = some call → s.calls k = some call ∨
      s'.CallOk repo sinks call) : Inv cfg repo sinks s' where
  world := hworld
  cursor := by
    intro c v hc
    rw [hcursor] at hc
    obtain ⟨hlt, hboundary, start, hstart, hcovered⟩ := h.cursor c v hc
    exact ⟨hlt.trans_le hext.versions, hext.grows.boundary hboundary, start,
      horigin.trans hstart, hext.covered hboundary hcovered⟩
  calls := by
    intro k call hk
    rcases hcalls k call hk with hold | hnew
    · exact hext.callOk (h.calls k call hold)
    · exact hnew

theorem Inv.setCall (h : Inv cfg repo sinks s) (k : ℕ) {call : Option CatchUp}
    (hcall : ∀ c, call = some c → s.CallOk repo sinks c) :
    Inv cfg repo sinks (s.setCall k call) := by
  have hext := extends_setCall s k call
  refine h.extend hext h.world rfl rfl fun k' c hc => ?_
  simp only [Bridges.setCall, Function.update_apply] at hc
  split_ifs at hc
  · exact Or.inr (hext.callOk (hcall c hc))
  · exact Or.inl hc

/-- A call reads the cursor and reports what it skips. -/
theorem Inv.locate (h : Inv cfg repo sinks s) {k : ℕ} {m : Manifest}
    (hm : ∃ g ∈ s.world.gens, g.manifest = m) : Inv cfg repo sinks (s.locate k m) := by
  have hhead : s.world.Boundary m.headSeq := boundary_head hm
  have hknown : s.Known s.cursor := by
    intro c v hc
    refine ⟨(h.cursor c v hc).1, fun c' hc' => ?_⟩
    rw [hc] at hc'
    exact (congrArg Prod.fst (Option.some.inj hc')).symm
  simp only [Bridges.locate]
  set readable := m.minSeq - 1
  split_ifs with hgap
  · set s' : Bridges := { s.setCall k (some (.located m.headSeq readable s.cursor)) with
      gaps := ((s.cursor.map Prod.fst).getD readable + 1, readable) :: s.gaps } with hs'
    have hext : s.Extends s' :=
      ⟨.refl _, List.subset_cons_self _ _, List.Subset.refl _, le_rfl, fun _ _ hc _ => hc⟩
    have hskipped : s'.Skipped readable s.cursor :=
      fun n hlt hle => ⟨_, List.mem_cons_self, hlt, hle⟩
    refine h.extend hext h.world rfl rfl fun k' call hcall => ?_
    simp only [hs', Bridges.setCall, Function.update_apply] at hcall
    split_ifs at hcall
    · rw [← Option.some.inj hcall]
      exact Or.inr ⟨hhead, hext.known hknown, hskipped⟩
    · exact Or.inl hcall
  · refine h.setCall k fun call hcall => ?_
    rw [← Option.some.inj hcall]
    refine ⟨hhead, hknown, fun n hlt hle => ?_⟩
    rcases hcursor : s.cursor with _ | ⟨c, v⟩ <;>
      simp only [hcursor, Option.map_none, Option.map_some, Option.getD_none,
        Option.getD_some] at hlt hle <;> omega

/-- What is read below the head is all there is, apart from what was folded. -/
theorem Inv.readLog (h : Inv cfg repo sinks s) {k head start : ℕ} {cursor : Option (ℕ × ℕ)}
    (hcall : s.CallOk repo sinks (.located head start cursor))
    (hunfolded : ∀ m v, s.world.current = some (m, v) →
      ∀ e ∈ between LogEntry.seq start (min head m.checkpointSeq) (committedEntries s.world.gens),
        refsFromEntries repo [e] = [])
    (hstep : s.readLog repo sinks k head start cursor = some s') : Inv cfg repo sinks s' := by
  obtain ⟨hhead, hknown, hskipped⟩ := hcall
  simp only [Bridges.readLog] at hstep
  split_ifs at hstep with hlt
  · obtain ⟨⟨m, v⟩, hcurrent, hstep⟩ := Option.bind_eq_some_iff.mp hstep
    obtain ⟨g, hg, rfl, rfl⟩ := h.world.current_generated hcurrent
    have hle : head ≤ g.manifest.headSeq := h.world.boundary_le hcurrent hhead
    rw [h.world.readLog_above hg start (min_le_right _ _), min_eq_left hle] at hstep
    simp only [Option.some.injEq] at hstep
    rw [← hstep]
    refine h.setCall k fun call hcall => ?_
    rw [← Option.some.inj hcall]
    refine ⟨hhead, hknown, hskipped, fun e he hlo hhi => ?_, fun sink hsink hne => Or.inl ?_⟩
    · by_cases hfold : e.seq ≤ g.manifest.checkpointSeq
      · have hmem : e ∈ between LogEntry.seq start (min head g.manifest.checkpointSeq)
            (committedEntries s.world.gens) :=
          Replay.mem_between.mpr ⟨he, hlo, le_min hhi hfold⟩
        rw [hunfolded _ _ hcurrent e hmem]
        exact List.nil_subset _
      · exact refsFromEntries_subset
          (Replay.mem_between.mpr ⟨he, max_lt hlo (not_le.mp hfold), hhi⟩)
    · rw [if_neg hne]
      exact hsink
  · rw [← Option.some.inj hstep]
    refine h.setCall k fun call hcall => ?_
    rw [← Option.some.inj hcall]
    exact ⟨hhead, hknown, hskipped, fun e _ hlo hhi => absurd (hlo.trans_le hhi) hlt,
      fun _ _ hne => absurd rfl hne⟩

/-- The cursor moves to the head of a call whose batch every sink received. -/
theorem Inv.put (h : Inv cfg repo sinks s) {k head start : ℕ} {cursor : Option (ℕ × ℕ)}
    {batch : List RefEvent}
    (hcall : s.CallOk repo sinks (.delivering head start cursor batch [])) (arrives : Bool) :
    Inv cfg repo sinks (s.put k head start cursor arrives) := by
  have hdone : Inv cfg repo sinks (s.setCall k none) := h.setCall k (by simp)
  have hcovered := covered_head hcall
  obtain ⟨hhead, hknown, hskipped, -⟩ := hcall
  simp only [Bridges.put]
  by_cases hsame : cursor.map Prod.fst = some head
  · rw [if_pos hsame]
    exact hdone
  rw [if_neg hsame]
  by_cases hwrite : (arrives && s.cursor.map Prod.snd = cursor.map Prod.snd) = true
  · rw [if_pos hwrite]
    simp only [Bool.and_eq_true, decide_eq_true_eq] at hwrite
    set s' : Bridges := { s.setCall k none with
      cursor := some (head, s.nextVersion)
      nextVersion := s.nextVersion + 1
      origin := if s.cursor.isNone then some start else s.origin } with hs'
    have hext : s.Extends s' := extends_cursor s _ head _
    refine ⟨h.world, fun c v hc => ?_, fun k' call hk => hext.callOk (hdone.calls k' call hk)⟩
    obtain ⟨rfl, rfl⟩ := Prod.mk.inj (Option.some.inj hc)
    refine ⟨Nat.lt_succ_self _, hhead, ?_⟩
    rcases hcursor : s.cursor with _ | ⟨c, v⟩
    · exact ⟨start, by simp [hs', hcursor], hext.covered hhead hcovered⟩
    · obtain ⟨-, -, a, ha, hold⟩ := h.cursor c v hcursor
      obtain ⟨⟨c', v'⟩, rfl, hv⟩ := Option.map_eq_some_iff.mp (hwrite.2.symm.trans
        (congrArg (Option.map Prod.snd) hcursor))
      obtain rfl : v' = v := hv
      obtain rfl : c = c' := (hknown c' v' rfl).2 c hcursor
      exact ⟨a, by simp [hs', hcursor, ha], hext.covered hhead (hold.join hskipped hcovered)⟩
  · rw [if_neg hwrite]
    exact hdone

/-- One more sink answers. -/
theorem Inv.deliver (h : Inv cfg repo sinks s) {k head start sink : ℕ}
    {cursor : Option (ℕ × ℕ)} {batch : List RefEvent} {pending : List ℕ}
    (hcall : s.CallOk repo sinks (.delivering head start cursor batch (sink :: pending)))
    (received accepted : Bool) :
    Inv cfg repo sinks { s.setCall k (if accepted then
        some (.delivering head start cursor batch pending) else none) with
      delivered := if received || accepted then batch.map (fun ev => (sink, ev)) ++ s.delivered
        else s.delivered } := by
  set s' : Bridges := { s.setCall k (if accepted then
      some (.delivering head start cursor batch pending) else none) with
    delivered := if received || accepted then batch.map (fun ev => (sink, ev)) ++ s.delivered
      else s.delivered } with hs'
  have hext : s.Extends s' := by
    refine ⟨.refl _, List.Subset.refl _, ?_, le_rfl, fun _ _ hc _ => hc⟩
    simp only [hs']
    split_ifs
    · exact List.subset_append_right _ _
    · exact List.Subset.refl _
  refine h.extend hext h.world rfl rfl fun k' call hk => ?_
  simp only [hs', Bridges.setCall, Function.update_apply] at hk
  split_ifs at hk with hkey haccepted
  · rw [← Option.some.inj hk]
    obtain ⟨hhead, hknown, hskipped, hbatch, hsinks⟩ := hext.callOk hcall
    refine Or.inr ⟨hhead, hknown, hskipped, hbatch, fun sink' hsink' hne => ?_⟩
    rcases hsinks sink' hsink' hne with hmem | hall
    · rcases List.mem_cons.mp hmem with rfl | hpending
      · refine Or.inr fun ev hev => ?_
        simp only [hs', haccepted, Bool.or_true, if_true]
        exact List.mem_append_left _ (List.mem_map_of_mem hev)
      · exact Or.inl hpending
    · exact Or.inr hall
  · exact Or.inl hk

/-- The store moves under the bridges. -/
theorem Inv.wal (h : Inv cfg repo sinks s) {a : Action} {w : World}
    (hstep : Walgit.step cfg s.world a = some w) : Inv cfg repo sinks { s with world := w } :=
  have hext : s.Extends { s with world := w } :=
    ⟨step_grows h.world hstep, List.Subset.refl _, List.Subset.refl _, le_rfl,
      fun _ _ hc _ => hc⟩
  h.extend hext (h.world.step a hstep) rfl rfl fun _ _ hk => Or.inl hk

theorem Inv.step (h : Inv cfg repo sinks s) {e : BridgeEvent} (hok : unfolded repo s e = true)
    (hstep : Bridges.step cfg repo sinks s e = some s') : Inv cfg repo sinks s' := by
  cases e with
  | wal a =>
    obtain ⟨w, hw, rfl⟩ := Option.map_eq_some_iff.mp hstep
    exact h.wal hw
  | opened k i =>
    obtain ⟨g, hg, rfl⟩ := Option.map_eq_some_iff.mp hstep
    refine h.setCall k fun call hcall => ?_
    rw [← Option.some.inj hcall]
    exact ⟨g, List.mem_of_getElem? hg, rfl⟩
  | locate k =>
    obtain ⟨m, hcall, rfl⟩ := step_locate hstep
    exact h.locate (h.calls k _ hcall)
  | readLog k =>
    obtain ⟨head, start, cursor, hcall, hread⟩ := step_readLog hstep
    refine h.readLog (h.calls k _ hcall) (fun m v hcurrent e he => ?_) hread
    simp only [unfolded, hcall, hcurrent, Option.all_some, List.all_eq_true,
      decide_eq_true_eq] at hok
    exact hok e he
  | deliver k received accepted =>
    obtain ⟨_, _, _, _, _, _, hcall, rfl⟩ := step_deliver hstep
    exact h.deliver (h.calls k _ hcall) received accepted
  | put k arrives =>
    obtain ⟨_, _, _, _, hcall, rfl⟩ := step_put hstep
    exact h.put (h.calls k _ hcall) arrives
  | crash k =>
    rw [← Option.some.inj hstep]
    exact h.setCall k (by simp)

theorem inv_created (access : Option RepoAccess) (now : Timestamp) (writer : String) :
    Inv cfg repo sinks (created (createdManifest access now writer)) where
  world := Walgit.inv_created access now writer
  cursor := by simp [created]
  calls := by simp [created]

/-- Above where the first call began and up to the cursor every transition was delivered to
every sink or was reported as a gap. -/
theorem cursor_covered {access : Option RepoAccess} {now : Timestamp} {writer : String}
    {events : List BridgeEvent}
    (hsteps : Runs.AllSteps (Bridges.step cfg repo sinks) (fun s e => unfolded repo s e = true)
      (created (createdManifest access now writer)) events)
    (hrun : Runs.run (Bridges.step cfg repo sinks)
      (created (createdManifest access now writer)) events = some s)
    {c v : ℕ} (hcursor : s.cursor = some (c, v)) :
    ∃ start, s.origin = some start ∧ ∀ e ∈ committedEntries s.world.gens,
      start < e.seq → e.seq ≤ c →
        s.Reported e.seq ∨ s.Received sinks (refsFromEntries repo [e]) := by
  have h := Runs.invariant (I := Inv cfg repo sinks) (fun _ _ _ h hok hstep => h.step hok hstep)
    hrun hsteps (inv_created access now writer)
  exact (h.cursor c v hcursor).2.2

end Proofs

section Runs

attribute [local instance] Text.asciiTables

def runBridges (events : List BridgeEvent) : Option Bridges :=
  Runs.run (Bridges.step ⟨3, List.length⟩ "o/r" [0]) (created (createdManifest none ⟨1, 0⟩ "w"))
    events

instance (s : Bridges) (events : List BridgeEvent) : Decidable (Runs.AllSteps
    (Bridges.step ⟨3, List.length⟩ "o/r" [0]) (fun s e => unfolded "o/r" s e = true) s events) :=
  Runs.AllSteps.decidable _ s events

/-- A bridge finds nothing in a new repository, and then a branch is pushed. -/
def firstPush : List BridgeEvent :=
  [.opened 0 0, .locate 0, .readLog 0, .put 0 true] ++
    ([.start 1 (.batch [Cluster.updating "refs/heads/main" "" oidA]), .capture 1 firstAttempt,
      .claim 1 "a" (fun _ => ⟨2, 0⟩) .delivered, .swap 1 ⟨3, 0⟩ .delivered,
      .finish 1] : List Action).map .wal

/-- The newest manifest is checkpointed. -/
def checkpointed (events : List BridgeEvent) : List BridgeEvent :=
  (runBridges events).toList.flatMap fun s => s.world.gens.head?.toList.map fun g =>
    let refs := refsAt (committedEntries s.world.gens) g.manifest.headSeq
    .wal (.rewrite (.checkpoint g.manifest ⟨g.manifest.headSeq, none, none, none, refs, none⟩)
      g.manifest g.version ⟨"", .empty⟩ "w" ⟨4, 0⟩ .delivered)

/-- The push is read and delivered before it is folded. -/
def inTime : List BridgeEvent :=
  let read := firstPush ++ [.opened 1 0, .locate 1, .readLog 1]
  read ++ checkpointed read ++ [.deliver 1 true true, .put 1 true]

/-- The push is folded after a call has chosen where to start. -/
def folded : List BridgeEvent :=
  let located := firstPush ++ [.opened 1 0, .locate 1]
  located ++ checkpointed located ++ [.readLog 1, .put 1 true]

theorem cursor_covered_inTime : ∃ s, runBridges inTime = some s ∧ s.cursor = some (1, 1) ∧
    s.gaps = [] ∧ ∃ start, s.origin = some start ∧ ∀ e ∈ committedEntries s.world.gens,
      start < e.seq → e.seq ≤ 1 →
        s.Reported e.seq ∨ s.Received [0] (refsFromEntries "o/r" [e]) := by
  have hrun : (runBridges inTime).map (fun s => (s.cursor, s.gaps)) = some (some (1, 1), []) := by
    decide
  obtain ⟨s, hs, heq⟩ := Option.map_eq_some_iff.mp hrun
  simp only [Prod.mk.injEq] at heq
  exact ⟨s, hs, heq.1, heq.2, cursor_covered (by decide) hs heq.1⟩

/-- The cursor passes a push that no sink received and no call reported. -/
theorem push_lost : ∃ s, runBridges folded = some s ∧ s.cursor = some (1, 1) ∧
    s.origin = some 0 ∧ s.gaps = [] ∧ s.delivered = [] ∧
    ∃ e ∈ committedEntries s.world.gens, e.seq = 1 ∧ refsFromEntries "o/r" [e] ≠ [] := by
  have hrun : (runBridges folded).map (fun s => (s.cursor, s.origin,
      decide (s.gaps = [] ∧ s.delivered = []), (committedEntries s.world.gens).any fun e =>
        e.seq = 1 && refsFromEntries "o/r" [e] ≠ [])) =
      some (some (1, 1), some 0, true, true) := by decide
  obtain ⟨s, hs, heq⟩ := Option.map_eq_some_iff.mp hrun
  simp only [Prod.mk.injEq, List.any_eq_true, Bool.and_eq_true, decide_eq_true_eq] at heq
  obtain ⟨hcursor, horigin, ⟨hgaps, hdelivered⟩, hentry⟩ := heq
  exact ⟨s, hs, hcursor, horigin, hgaps, hdelivered, hentry⟩

end Runs

end Bridges

end Walgit
