import Walgit.FetchViews
import Walgit.Submissions

/-!
# What clients see

The cluster together with the clients that read from it. A read syncs the handle that serves
it after it arrived, and is shown that handle's view some time later. Every run of it is one of
a single log with conditional changes.
-/
namespace Walgit

open Function (update)

/-- A request that reads refs. -/
inductive Read where
  | arrived
  /-- A sync of the handle was begun for it and succeeded. -/
  | synced (h : ℕ)
  deriving DecidableEq, Repr

structure Frontend where
  cluster : Cluster
  /-- The read each client waits for. -/
  reads : ℕ → Option Read
  /-- What each client was shown last. -/
  shown : ℕ → Option (Manifest × RefState)

namespace Frontend

inductive Event where
  | deed (d : Deed)
  | arrive (r : ℕ)
  | sync (r h : ℕ) (fault : Option Fault)
  | serve (r : ℕ)
  /-- The client goes away, or is told of an error. -/
  | hangUp (r : ℕ)

/-- A repository just created, that nobody has read. -/
def created (m : Manifest) : Frontend := ⟨.created m, fun _ => none, fun _ => none⟩

/-- The handle a client's read was synced with. -/
def syncedWith (v : Frontend) (r : ℕ) : Option ℕ :=
  match v.reads r with
  | some (.synced h) => some h
  | _ => none

section Step

variable [Text.CharTables] (cfg : Config)

/-- Whether a sync of the handle gets through. -/
def syncs (v : Frontend) (h : ℕ) (fault : Option Fault) : Bool :=
  (v.cluster.copy h).any fun c => v.cluster.world.current.any fun p =>
    (c.sync (v.cluster.world.readLog p.1) p.1 p.2 fault).2

def step (v : Frontend) : Event → Option Frontend
  | .deed d => (Cluster.step cfg v.cluster d).map fun s => { v with cluster := s }
  | .arrive r =>
    if (v.reads r).isSome then none
    else some { v with reads := update v.reads r (some .arrived) }
  | .sync r h fault =>
    if v.reads r ≠ some .arrived then none
    else do
      let s ← Cluster.step cfg v.cluster (.sync h fault)
      some { v with
        cluster := s
        reads := if v.syncs h fault then update v.reads r (some (.synced h)) else v.reads }
  | .serve r => do
    let h ← v.syncedWith r
    let view ← v.cluster.fetchView h
    some { v with reads := update v.reads r none, shown := update v.shown r (some view) }
  | .hangUp r => some { v with reads := update v.reads r none }

/-- Deeds are sound and whole, and a read is served by the handle of its site. -/
def whole (v : Frontend) : Event → Bool
  | .deed d => v.cluster.sound d && v.cluster.whole d
  | .sync _ h fault => v.cluster.sound (.sync h fault) && v.cluster.whole (.sync h fault)
  | .serve r => (v.syncedWith r).all fun h => v.cluster.serves h
  | .arrive _ | .hangUp _ => true

def Whole (v : Frontend) (events : List Event) : Prop :=
  Runs.AllSteps (step cfg) (fun v e => v.whole e = true) v events

end Step

end Frontend

namespace Cluster

section Handles

variable [Text.CharTables] {cfg : Config} {s s' : Cluster}

/-- Handles are numbered on, and one in use never goes back to an older head. -/
structure HandlesKeep (s s' : Cluster) : Prop where
  next : s.nextHandle ≤ s'.nextHandle
  head : ∀ j handle', j < s.nextHandle → s'.handles j = some handle' →
    ∃ handle, s.handles j = some handle ∧ handle.manifest.headSeq ≤ handle'.manifest.headSeq

omit [Text.CharTables] in
theorem HandlesKeep.same (hnext : s.nextHandle = s'.nextHandle)
    (hhandles : s.handles = s'.handles) : s.HandlesKeep s' :=
  ⟨hnext.le, fun j handle' _ hj => ⟨handle', (congrFun hhandles j).trans hj, Nat.le_refl _⟩⟩

omit [Text.CharTables] in
/-- A copy that stays in use keeps its handle, and does not go back. -/
theorem handlesKeep_setCopy {i : ℕ} {c c' : Copy} (hc : s.copy i = some c) (hkeeps : c.Keeps c') :
    s.HandlesKeep (s.setCopy i c') := by
  refine ⟨Nat.le_refl _, fun j handle' _ hj => ?_⟩
  change update s.handles i (some c'.handle) j = some handle' at hj
  rw [Function.update_apply] at hj
  split_ifs at hj with heq
  · cases hj
    exact ⟨c.handle, heq ▸ (copy_eq_some.mp hc).1, hkeeps.head⟩
  · exact ⟨handle', hj, Nat.le_refl _⟩

theorem Ok.handlesKeep (h : Ok cfg s) {d : Deed} (hsound : s.sound d = true)
    (hstep : Cluster.step cfg s d = some s') : s.HandlesKeep s' := by
  simp only [sound, Bool.and_eq_true] at hsound
  obtain ⟨hserves, hsound⟩ := hsound
  have hw := h.world.sound
  cases d with
  | store a =>
    obtain ⟨_, -, -, rfl⟩ := step_store hstep
    exact .same rfl rfl
  | start i t job =>
    obtain ⟨_, _, -, -, rfl⟩ := step_start hstep
    exact .same rfl rfl
  | pin t =>
    obtain ⟨_, _, _, -, -, -, -, rfl⟩ := step_pin hstep
    exact .same rfl rfl
  | capture t policy writer startedAt lastEntryTime =>
    obtain ⟨_, _, _, _, _, -, -, -, -, -, -, rfl⟩ := step_capture hstep
    exact .same rfl rfl
  | settle t fault =>
    obtain ⟨task, i, c, c', ht, ho, hc, -, hsettle, rfl⟩ := step_settle hstep
    have hserving : s.serves i = true := by simpa [worksOn, ho] using hserves
    have hkeeps := (h.settleTask ht ho hc hserving hsound hsettle).2
    exact ⟨Nat.le_refl _, (handlesKeep_setCopy hc hkeeps).head⟩
  | finish t clock =>
    obtain ⟨task, i, handle, w, -, -, hhandle, -, -, rfl⟩ := step_finish hstep
    refine ⟨Nat.le_refl _, fun j handle' _ hj => ?_⟩
    change update s.handles i (some (handle.foldTask task clock)) j = some handle' at hj
    rw [Function.update_apply, foldTask_eq] at hj
    split_ifs at hj with heq
    · cases hj
      exact ⟨handle, heq ▸ hhandle, Nat.le_refl _⟩
    · exact ⟨handle', hj, Nat.le_refl _⟩
  | sync i fault =>
    obtain ⟨c, m, v, hc, hcur, rfl⟩ := step_sync hstep
    have hserving : s.serves i = true := by simpa [worksOn] using hserves
    exact handlesKeep_setCopy hc (Copy.sync_spec hw (h.copyOk hserving hc) hcur fault).2.1
  | rematerialize i fault =>
    obtain ⟨c, m, v, hc, hcur, rfl⟩ := step_rematerialize hstep
    have hserving : s.serves i = true := by simpa [worksOn] using hserves
    obtain rfl : fault = none := by simpa using hsound
    exact handlesKeep_setCopy hc (Copy.rematerialize_spec hw (h.copyOk hserving hc) hcur).2.1
  | openRepo site fault =>
    obtain ⟨m, v, -, -, ⟨-, rfl⟩ | ⟨-, rfl⟩⟩ := step_openRepo hstep
    · refine ⟨Nat.le_succ _, fun j handle' hlt hj => ⟨handle', ?_, Nat.le_refl _⟩⟩
      exact (Function.update_of_ne (Nat.ne_of_lt hlt) ..).symm.trans hj
    · exact .same rfl rfl
  | evict site =>
    obtain rfl := step_evict hstep
    exact .same rfl rfl
  | stop site =>
    obtain rfl := step_stop hstep
    refine ⟨Nat.le_refl _, fun j handle' _ hj => ⟨handle', ?_, Nat.le_refl _⟩⟩
    exact (Option.filter_eq_some_iff.mp hj).1
  | forgeEnsure i =>
    obtain ⟨c, c', hc, hensure, rfl⟩ := step_forgeEnsure hstep
    refine handlesKeep_setCopy hc ?_
    rw [forgeEnsure_eq hensure]
    exact ⟨rfl, Nat.le_refl _⟩
  | view i =>
    obtain ⟨c, m, v, hc, hcur, -, rfl⟩ := step_view hstep
    have hserving : s.serves i = true := by simpa [worksOn] using hserves
    have hkeeps := (Copy.sync_spec hw (h.copyOk hserving hc) hcur none).2.1
    exact ⟨Nat.le_refl _, (handlesKeep_setCopy hc hkeeps).head⟩
  | draft i k createdAt firstStateAt asOf =>
    obtain ⟨_, _, _, -, -, -, -, rfl⟩ := step_draft hstep
    exact .same rfl rfl
  | rewrite i job policy writer now reply =>
    obtain ⟨_, _, _, _, -, -, -, -, -, rfl | ⟨-, -, rfl⟩⟩ := step_rewrite hstep <;>
      exact .same rfl rfl
  | adopt k saves =>
    obtain ⟨p, c, hp, hpk, hc, rfl⟩ := step_adopt hstep
    have hserving : s.serves p.handle = true := by simpa [worksOn, hpk] using hserves
    obtain ⟨hgen, -, hbound⟩ := h.adoptions p hp
    have hsave : saves = true ∨ c.disk.saved.appliedSeq ≤ p.manifest.headSeq := by
      simpa [hpk, savedUpTo, hc] using hsound
    have hkeeps := (Copy.adoptWrite_spec hw (h.copyOk hserving hc) hgen
      (hbound c.handle (copy_eq_some.mp hc).1) saves hsave).2
    exact ⟨Nat.le_refl _, (handlesKeep_setCopy hc hkeeps).head⟩

/-- How many entries of the log a manifest covers. -/
def place (s : Cluster) (m : Manifest) : ℕ :=
  (Replay.upTo LogEntry.seq m.headSeq (committedEntries s.world.gens)).length

omit [Text.CharTables] in
theorem place_mono {m m' : Manifest} (hm : m.headSeq ≤ m'.headSeq) {new : List LogEntry}
    (hlog : committedEntries s'.world.gens = committedEntries s.world.gens ++ new) :
    s.place m ≤ s'.place m' := by
  unfold place Replay.upTo
  rw [hlog, List.filter_append, List.length_append]
  refine (List.Sublist.length_le ?_).trans (Nat.le_add_right _ _)
  refine List.monotone_filter_right _ fun e he => ?_
  simp only [decide_eq_true_eq] at he ⊢
  omega

/-- The refs a held manifest stands for are those after its part of the log. -/
theorem Ok.after_place (h : Ok cfg s) {g : Generation} (hg : g ∈ s.world.gens) :
    s.place g.manifest ≤ (contractLog s.world.gens).length ∧
      refsAt (committedEntries s.world.gens) g.manifest.headSeq =
        refRules.after ((contractLog s.world.gens).take (s.place g.manifest)) := by
  have hchain := h.world.inv.chain
  obtain ⟨gens, hsuffix⟩ := exists_suffix hg
  obtain ⟨hrefs, hlength⟩ := (hchain.suffix hsuffix).contract
  obtain ⟨newer, hnewer⟩ := hsuffix
  have hplace : s.place g.manifest = (contractLog (g :: gens)).length := by
    rw [place, hchain.upTo_head ⟨newer, hnewer⟩, hlength]
  obtain ⟨new, hprefix⟩ := contractLog_prefix newer (g :: gens)
  rw [hnewer] at hprefix
  rw [hplace, ← hprefix, List.take_left, refsAt, hchain.upTo_head ⟨newer, hnewer⟩, hrefs]
  exact ⟨by simp, rfl⟩

/-- What publishers do is what the clients of one log may see. -/
theorem Ok.contract_step {ρ : Type} [DecidableEq ρ] (h : Ok cfg s) (h' : Ok cfg s')
    (hjudged : JudgedOnto s'.world.gens) (hsent : SentOnce s.world) {actions : List Action}
    (hrec : Receipts actions s.world) {a : Action}
    (hstep : Walgit.step cfg s.world a = some s'.world)
    {x : PushContract.State RequestId RefTransaction ρ}
    (hhist : x.hist = contractLog s.world.gens) (hpend : x.pend = s.world.pend) :
    PushContract.Steps refRules x
      { x with hist := contractLog s'.world.gens, pend := s'.world.pend } := by
  rcases step_gens hstep with hsame | ⟨g, hg⟩
  · have hlogged : ∀ id, s'.world.logged id = s.world.logged id :=
      fun id => by rw [World.logged, hsame, World.logged]
    obtain ⟨ids, hoff, hmoves⟩ := step_moves hstep h.world.inv hsent hrec hlogged
    rw [hsame, ← hhist]
    rw [← hpend] at hoff hmoves
    exact PushContract.steps_moves hoff hmoves
  · rw [hg, contractLog, ← hhist]
    -- A claim that adds no pushes changes nothing a client was told or waits for.
    have hquiet : (∀ o ∈ g.origin, o.pushes = []) → s'.world.pend = x.pend := by
      intro hnone
      rw [hpend]
      funext id
      obtain ⟨hjobs, hanswers⟩ := step_commit_tasks hstep hg
      have hlogged : s'.world.logged id = s.world.logged id := by
        rw [Bool.eq_iff_iff, logged_iff, logged_iff]
        constructor
        · rintro ⟨o, ⟨g₀, hg₀, ho⟩, hid⟩
          rw [hg] at hg₀
          rcases List.mem_cons.mp hg₀ with rfl | hg₀
          · rw [hnone o ho] at hid
            cases hid
          · exact ⟨o, ⟨g₀, hg₀, ho⟩, hid⟩
        · rintro ⟨o, ⟨g₀, hg₀, ho⟩, hid⟩
          exact ⟨o, ⟨g₀, hg ▸ List.mem_cons_of_mem _ hg₀, ho⟩, hid⟩
      have hstage : s'.world.stage id = s.world.stage id := by
        rw [World.stage, hlogged, hanswers, World.stage]
      rw [World.pend, World.pend, hjobs, hstage]
    cases ho : g.origin with
    | none =>
      rw [hquiet (by simp [ho])]
      simp only [Option.map_none, Option.getD_none, List.append_nil]
      exact .refl
    | some o =>
      rw [Option.map_some, Option.getD_some]
      cases hjob : o.job with
      | batch reqs =>
        obtain ⟨hnew, hoff, hdone⟩ := step_commits hstep h.world.inv hsent hrec hg ho
        rw [← hpend] at hnew hoff
        have hpushes : o.contract = o.pushes.map fun p => .push p.1 p.2 := by
          rw [Origin.contract, hjob]
        rw [hpushes]
        refine PushContract.steps_commits o.pushes_nodup hnew ?_ hoff hdone
        have hmine : g ∈ s'.world.gens := hg ▸ List.mem_cons_self
        have hportable := h'.world.claims o (h'.world.inv.claimed o ⟨g, hmine, ho⟩)
        rw [hjob] at hportable
        rw [hhist, h.world.inv.chain.contract.1, Origin.pushes, hjob]
        simp only
        rw [map_memberPushes]
        refine judgeAll_swaps _ (fun r hr u hu hsym => ?_) (RefState.nonNull_fresh.foldRefs _)
          fun _ _ => ?_
        · have hreq := List.all_eq_true.mp hportable r hr
          simp only [Bool.and_eq_true] at hreq
          exact symbolic_names_head (List.all_eq_true.mp hreq.1 u hu) hsym
        · rw [hg] at hjudged
          change o.attempt.basis.refs.value _ = _
          rw [hjudged.2 o ho]
      | compact | control | sealPacks =>
        have hnone : o.pushes = [] := by rw [Origin.pushes, hjob]
        rw [hquiet fun o' ho' => by rw [ho] at ho'; cases ho'; exact hnone, Origin.contract, hjob]
        exact PushContract.steps_folds x _

/-- What the clients' view of a cluster rests on. -/
structure Ready (cfg : Config) (s : Cluster) : Prop where
  ok : Ok cfg s
  level : s.Level
  judged : JudgedOnto s.world.gens
  sent : SentOnce s.world
  receipts : ∃ actions, Receipts actions s.world

theorem ready_created (access : Option RepoAccess) (now : Timestamp) (writer : String) :
    Ready cfg (created (createdManifest access now writer)) := by
  refine ⟨ok_created cfg access now writer, level_created _, ⟨trivial, ?_⟩, sentOnce_created _,
    [], ?_⟩
  · rintro o ⟨⟩
  · rintro t task ⟨⟩

theorem Ready.step (h : Ready cfg s) {d : Deed} (hsound : s.sound d = true)
    (hwhole : s.whole d = true) (hstep : Cluster.step cfg s d = some s') : Ready cfg s' := by
  have hok := h.ok.step hsound hstep
  refine ⟨hok, h.level.step h.ok hsound hwhole hstep, h.ok.judgedOnto hok hstep h.judged, ?_, ?_⟩
  · rcases step_world hstep with heq | ⟨a, hw, -⟩
    · rw [heq]
      exact h.sent
    · exact h.sent.step h.ok.world.inv hw
  · obtain ⟨actions, hrec⟩ := h.receipts
    rcases step_world hstep with heq | ⟨a, hw, -⟩
    · exact ⟨actions, heq ▸ hrec⟩
    · exact ⟨_, hrec.step h.ok.world.inv a hw⟩

end Handles

end Cluster

namespace Frontend

section Refines

variable [Text.CharTables] {cfg : Config} {v v' : Frontend}
  {x : PushContract.State RequestId RefTransaction ℕ}

/-- A state of one log, as the clients of the instances see it. -/
structure Explains (v : Frontend) (x : PushContract.State RequestId RefTransaction ℕ) : Prop where
  log : x.hist = contractLog v.cluster.world.gens
  pend : x.pend = v.cluster.world.pend
  reads : ∀ r, x.floor r = none ↔ v.reads r = none
  /-- A synced handle covers what was in the log when the read arrived. -/
  synced : ∀ r h, v.syncedWith r = some h → h < v.cluster.nextHandle ∧
    ∀ lo handle, x.floor r = some lo → v.cluster.handles h = some handle →
      lo ≤ v.cluster.place handle.manifest
  shown : ∀ r m refs, v.shown r = some (m, refs) → refs = refRules.after (x.hist.take (x.seen r))

theorem Explains.deed (hx : Explains v x) (hinv : PushContract.Inv refRules x)
    (hready : v.cluster.Ready cfg) {d : Deed} (hsound : v.cluster.sound d = true)
    (hwhole : v.cluster.whole d = true) {s : Cluster}
    (hstep : Cluster.step cfg v.cluster d = some s) :
    ∃ x', PushContract.Steps refRules x x' ∧ Explains { v with cluster := s } x' := by
  have hready' := hready.step hsound hwhole hstep
  have hkeep := hready.ok.handlesKeep hsound hstep
  have hsteps : PushContract.Steps refRules x
      { x with hist := contractLog s.world.gens, pend := s.world.pend } := by
    rcases Cluster.step_world hstep with heq | ⟨a, hw, -⟩
    · rw [heq, ← hx.log, ← hx.pend]
      exact .refl
    · obtain ⟨actions, hrec⟩ := hready.receipts
      exact hready.ok.contract_step hready'.ok hready'.judged hready.sent hrec hw hx.log hx.pend
  have hlog : ∃ new, committedEntries s.world.gens =
      committedEntries v.cluster.world.gens ++ new := by
    rcases Cluster.step_world hstep with heq | ⟨a, hw, -⟩
    · exact ⟨[], by rw [heq, List.append_nil]⟩
    · obtain ⟨new, hnew, -⟩ := (step_grows hready.ok.world.inv hw).log
      exact ⟨new, hnew⟩
  refine ⟨_, hsteps, rfl, rfl, hx.reads, fun r h hr => ?_, fun r m refs hr => ?_⟩
  · obtain ⟨hlt, hcovers⟩ := hx.synced r h hr
    refine ⟨Nat.lt_of_lt_of_le hlt hkeep.next, fun lo handle' hlo hhandle' => ?_⟩
    obtain ⟨handle, hhandle, hhead⟩ := hkeep.head h handle' hlt hhandle'
    obtain ⟨new, hnew⟩ := hlog
    exact (hcovers lo handle hlo hhandle).trans (Cluster.place_mono hhead hnew)
  · obtain ⟨new, hnew⟩ : x.hist <+: contractLog s.world.gens := hsteps.hist_extends
    rw [hx.shown r m refs hr]
    change _ = refRules.after ((contractLog s.world.gens).take (x.seen r))
    rw [← hnew, List.take_append_of_le_length (hinv.seen r)]

/-- A sync that gets through brings the handle to the end of the log. -/
theorem syncs_place (hready : v.cluster.Ready cfg) {h : ℕ} {fault : Option Fault}
    (hserves : v.cluster.serves h = true) (hsyncs : v.syncs h fault = true) {s : Cluster}
    (hstep : Cluster.step cfg v.cluster (.sync h fault) = some s) {handle : Handle}
    (hhandle : s.handles h = some handle) :
    s.place handle.manifest = (contractLog s.world.gens).length := by
  obtain ⟨c, m, version, hc, hcur, rfl⟩ := Cluster.step_sync hstep
  have hw := hready.ok.world.sound
  have hdone : (c.sync (v.cluster.world.readLog m) m version fault).2 = true := by
    simpa [syncs, hc, hcur] using hsyncs
  have hm := (Copy.sync_spec hw (hready.ok.copyOk hserves hc) hcur fault).2.2.1 hdone
  change update v.cluster.handles h _ h = some handle at hhandle
  rw [Function.update_self] at hhandle
  cases hhandle
  change v.cluster.place _ = (contractLog v.cluster.world.gens).length
  rw [Cluster.place, hm, Replay.upTo_eq_self (Copy.entry_le_current hw hcur)]
  exact hready.ok.world.inv.chain.contract.2.symm

/-- What a client is shown is the state after a part of the log, one that has all there was when
the read arrived. -/
theorem Explains.serve (hx : Explains v x) (hready : v.cluster.Ready cfg) {r h : ℕ}
    (hsynced : v.syncedWith r = some h) (hserves : v.cluster.serves h = true) {m : Manifest}
    {refs : RefState} (hview : v.cluster.fetchView h = some (m, refs)) :
    ∃ lo j, x.floor r = some lo ∧ lo ≤ j ∧ j ≤ x.hist.length ∧
      refs = refRules.after (x.hist.take j) := by
  obtain ⟨c, hc, heq⟩ := Option.map_eq_some_iff.mp hview
  cases heq
  have hwaits : x.floor r ≠ none := by
    rw [Ne, hx.reads]
    intro hnone
    rw [syncedWith, hnone] at hsynced
    cases hsynced
  obtain ⟨lo, hlo⟩ := Option.ne_none_iff_exists'.mp hwaits
  obtain ⟨g, hg, hgm, -⟩ := (hready.ok.copyOk hserves hc).held
  obtain ⟨hle, hrefs⟩ := hready.ok.after_place hg
  rw [hgm, ← hx.log] at hle hrefs
  refine ⟨lo, _, hlo, ?_, hle, ?_⟩
  · exact (hx.synced r h hsynced).2 lo c.handle hlo (Cluster.copy_eq_some.mp hc).1
  · rw [← hrefs]
    exact (hready.level h c hserves hc).refs

omit [Text.CharTables] in
/-- A client's read comes to another state. -/
theorem Explains.setRead [Text.CharTables] (hx : Explains v x) (r : ℕ) {read : Option Read}
    {floor : Option ℕ} (hreads : floor = none ↔ read = none)
    (hsynced : ∀ h, read = some (.synced h) → h < v.cluster.nextHandle ∧
      ∀ lo handle, floor = some lo → v.cluster.handles h = some handle →
        lo ≤ v.cluster.place handle.manifest) :
    Explains { v with reads := update v.reads r read }
      { x with floor := update x.floor r floor } := by
  refine ⟨hx.log, hx.pend, fun r' => ?_, fun r' h hr => ?_, hx.shown⟩
  · change update x.floor r floor r' = none ↔ update v.reads r read r' = none
    rw [Function.update_apply, Function.update_apply]
    split_ifs
    · exact hreads
    · exact hx.reads r'
  · change _ ∧ ∀ lo handle, update x.floor r floor r' = some lo → _
    by_cases heq : r' = r
    · subst heq
      simp only [syncedWith, Function.update_self] at hr
      rw [Function.update_self]
      refine hsynced h ?_
      split at hr <;> cases hr
      rfl
    · simp only [syncedWith, Function.update_of_ne heq] at hr
      rw [Function.update_of_ne heq]
      exact hx.synced r' h hr

theorem step_sync {r i : ℕ} {fault : Option Fault}
    (h : Frontend.step cfg v (.sync r i fault) = some v') :
    v.reads r = some .arrived ∧ ∃ s, Cluster.step cfg v.cluster (.sync i fault) = some s ∧
      ((v.syncs i fault = true ∧ v' = { v with
        cluster := s
        reads := update v.reads r (some (.synced i)) }) ∨ v' = { v with cluster := s }) := by
  by_cases harrived : v.reads r = some .arrived
  · rw [Frontend.step, if_neg (not_not.mpr harrived)] at h
    obtain ⟨s, hs, heq⟩ := Option.bind_eq_some_iff.mp h
    cases heq
    refine ⟨harrived, s, hs, ?_⟩
    split_ifs with hsyncs
    · exact Or.inl ⟨hsyncs, rfl⟩
    · exact Or.inr rfl
  · rw [Frontend.step, if_pos harrived] at h
    cases h

theorem step_serve {r : ℕ} (h : Frontend.step cfg v (.serve r) = some v') :
    ∃ i view, v.syncedWith r = some i ∧ v.cluster.fetchView i = some view ∧ v' = { v with
      reads := update v.reads r none
      shown := update v.shown r (some view) } := by
  simp only [Frontend.step, Option.bind_eq_bind, Option.bind_eq_some_iff] at h
  obtain ⟨i, hsynced, view, hview, heq⟩ := h
  cases heq
  exact ⟨i, view, hsynced, hview, rfl⟩

theorem Explains.step (hx : Explains v x) (hinv : PushContract.Inv refRules x)
    (hready : v.cluster.Ready cfg) {e : Event} (hwhole : v.whole e = true)
    (hstep : Frontend.step cfg v e = some v') :
    v'.cluster.Ready cfg ∧ ∃ x', PushContract.Steps refRules x x' ∧ Explains v' x' := by
  cases e with
  | deed d =>
    obtain ⟨s, hs, rfl⟩ := Option.map_eq_some_iff.mp hstep
    obtain ⟨hsound, hwhole⟩ := Bool.and_eq_true_iff.mp hwhole
    exact ⟨hready.step hsound hwhole hs, hx.deed hinv hready hsound hwhole hs⟩
  | arrive r =>
    simp only [Frontend.step] at hstep
    split_ifs at hstep with hidle
    cases hstep
    rw [Option.not_isSome_iff_eq_none, ← hx.reads] at hidle
    refine ⟨hready, _, .single (.readBegin r hidle), hx.setRead r (by simp) ?_⟩
    rintro h ⟨⟩
  | sync r h fault =>
    obtain ⟨harrived, s, hs, hv'⟩ := step_sync hstep
    obtain ⟨hsound, hwhole⟩ := Bool.and_eq_true_iff.mp hwhole
    have hready' := hready.step hsound hwhole hs
    obtain ⟨x', hsteps, hx'⟩ := hx.deed hinv hready hsound hwhole hs
    rcases hv' with ⟨hsyncs, rfl⟩ | rfl
    · refine ⟨hready', x', hsteps, ?_⟩
      suffices hread : Explains { v with
          cluster := s
          reads := update v.reads r (some (.synced h)) }
          { x' with floor := update x'.floor r (x'.floor r) } by
        rwa [Function.update_eq_self] at hread
      refine hx'.setRead r ?_ fun h' heq => ?_
      · rw [hx'.reads]
        simp [harrived]
      · cases heq
        have hserves : v.cluster.serves h = true := by
          simpa [Cluster.sound, Cluster.worksOn] using hsound
        obtain ⟨handle, hhandle, -⟩ := Cluster.serves_eq_true hserves
        have hkeep := hready.ok.handlesKeep hsound hs
        refine ⟨Nat.lt_of_lt_of_le (hready.ok.handles h handle hhandle).2 hkeep.next,
          fun lo handle' hlo hhandle' => ?_⟩
        change lo ≤ s.place _
        rw [syncs_place hready hserves hsyncs hs hhandle']
        have hfloor := ((PushContract.inv_steps hinv hsteps).floors r lo hlo).2
        rwa [hx'.log] at hfloor
    · exact ⟨hready', x', hsteps, hx'⟩
  | serve r =>
    obtain ⟨h, ⟨m, refs⟩, hsynced, hview, rfl⟩ := step_serve hstep
    have hserves : v.cluster.serves h = true := by simpa [whole, hsynced] using hwhole
    obtain ⟨lo, j, hlo, hle, hj, hrefs⟩ := hx.serve hready hsynced hserves hview
    have hidle : Explains { v with reads := update v.reads r none }
        { x with floor := update x.floor r none } := hx.setRead r (by simp) (by simp)
    refine ⟨hready, _, .single (.readEnd r lo j hlo hle hj), hidle.log, hidle.pend, hidle.reads,
      hidle.synced, fun r' m' refs' hr => ?_⟩
    change update v.shown r _ r' = some (m', refs') at hr
    change refs' = refRules.after (x.hist.take (update x.seen r j r'))
    rw [Function.update_apply] at hr ⊢
    split_ifs at hr ⊢
    · cases hr
      exact hrefs
    · exact hx.shown r' m' refs' hr
  | hangUp r =>
    cases hstep
    exact ⟨hready, _, .single (.readFail r), hx.setRead r (by simp) (by simp)⟩

theorem explains_created (access : Option RepoAccess) (now : Timestamp) (writer : String) :
    Explains (created (createdManifest access now writer)) PushContract.initial where
  log := rfl
  pend := rfl
  reads r := by simp [PushContract.initial, created]
  synced r h hr := by simp [syncedWith, created] at hr
  shown r m refs hr := by simp [created] at hr

/-- From a state that is explained on, every run is. -/
theorem Explains.run (hx : Explains v x) (hinv : PushContract.Inv refRules x)
    (hready : v.cluster.Ready cfg) {events : List Event} (hwhole : Whole cfg v events)
    (hrun : Runs.run (Frontend.step cfg) v events = some v') :
    v'.cluster.Ready cfg ∧ ∃ x', PushContract.Steps refRules x x' ∧ Explains v' x' := by
  refine Runs.invariant (I := fun v' => v'.cluster.Ready cfg ∧
    ∃ x', PushContract.Steps refRules x x' ∧ Explains v' x')
    (fun u e w hu he hstep => ?_) hrun hwhole ⟨hready, x, .refl, hx⟩
  obtain ⟨hready, x', hsteps, hx'⟩ := hu
  obtain ⟨hready', x'', hsteps', hx''⟩ :=
    hx'.step (PushContract.inv_steps hinv hsteps) hready he hstep
  exact ⟨hready', x'', hsteps.trans hsteps', hx''⟩

end Refines

section Runs

attribute [local instance] Text.asciiTables

instance (cfg : Config) (v : Frontend) (events : List Event) : Decidable (Whole cfg v events) :=
  inferInstanceAs (Decidable (Runs.AllSteps ..))

def runFrom (v : Frontend) (events : List Event) : Option Frontend :=
  Runs.run (Frontend.step ⟨3, List.length⟩) v events

end Runs

end Frontend

end Walgit
