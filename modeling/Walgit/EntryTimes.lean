import Walgit.CompareAndSwap

/-!
# Entry times

A request may carry the time of its entry. The publisher refuses it below the newest entry
time that its handle knows, a floor that a handle keeps in memory: it starts without one and
learns it from what it replays and from what it commits.
-/
namespace Walgit

open Replay (between)

/-- The numbers and times of the entries a batch writes. -/
theorem written_getElem? (uuid writer : String) (startedAt : Timestamp) (clock : ℕ → Timestamp)
    (seq : ℕ) (members : List (PublishRequest × List ForgeEvent)) (k : ℕ) :
    (withNonce uuid (buildEntries writer startedAt clock seq members))[k]?.map
        (fun e => (e.seq, e.createdAt)) =
      members[k]?.map fun m => (seq + k, some (m.1.createdAt.getD (clock (seq + k)))) := by
  rw [withNonce_getElem?_map, buildEntries_getElem?]
  cases members[k]? with
  | none => rfl
  | some m =>
    simp only [Option.map_some]
    split_ifs <;> rfl

section Batches

variable [Text.CharTables]

/-- Every request with a time of its own updates a ref. -/
def updatesRefs (reqs : List PublishRequest) : Bool :=
  reqs.all fun req => req.createdAt.isNone || !req.txn.updates.isEmpty

/-- Accepted explicit times are at or above the floor, and later ones at or above earlier ones. -/
theorem judgeAll_times (b : Basis) {w : Working} {reqs : List PublishRequest}
    (hrefs : updatesRefs reqs) :
    (∀ m ∈ accepted reqs (judgeAll b w reqs).1, ∀ ts ∈ m.1.createdAt, ∀ f ∈ w.floor,
      f ≤ ts.toSystem) ∧
    (accepted reqs (judgeAll b w reqs).1).Pairwise fun m m' =>
      ∀ ts ∈ m.1.createdAt, ∀ ts' ∈ m'.1.createdAt, ts.toSystem ≤ ts'.toSystem := by
  induction reqs generalizing w with
  | nil => simp [accepted]
  | cons req reqs ih =>
    simp only [updatesRefs, List.all_cons, Bool.and_eq_true, Bool.or_eq_true,
      Option.isNone_iff_eq_none, Bool.not_eq_true', List.isEmpty_eq_false_iff] at hrefs
    obtain ⟨hreq, hrest⟩ := hrefs
    obtain ⟨hfloor, hsorted⟩ := ih (w := (judge b w req).2) hrest
    -- The floor only rises, and to the time of an accepted request.
    have hstep : (∀ f ∈ w.floor, ∃ f' ∈ (judge b w req).2.floor, f ≤ f') ∧
        ((judge b w req).1.valid → ∀ ts ∈ req.createdAt,
          (∀ f ∈ w.floor, f ≤ ts.toSystem) ∧ (judge b w req).2.floor = some ts.toSystem) := by
      cases hcreated : req.createdAt with
      | none =>
        rw [judge_floor_none b w hcreated]
        exact ⟨fun f hf => ⟨f, hf, le_rfl⟩, by simp⟩
      | some ts =>
        obtain ⟨hafter, hvalid⟩ :=
          judge_floor_some b w hcreated (hreq.resolve_left (by simp [hcreated]))
        cases hv : (judge b w req).1.valid with
        | true =>
          rw [hv, if_pos rfl] at hafter
          refine ⟨fun f hf => ⟨_, hafter, hvalid hv f hf⟩, fun _ ts' hts' => ?_⟩
          obtain rfl := Option.some.inj hts'
          exact ⟨hvalid hv, hafter⟩
        | false =>
          rw [hv, if_neg Bool.false_ne_true] at hafter
          rw [hafter]
          exact ⟨fun f hf => ⟨f, hf, le_rfl⟩, by simp⟩
    obtain ⟨hraise, haccept⟩ := hstep
    have hlow : ∀ m ∈ accepted reqs (judgeAll b (judge b w req).2 reqs).1, ∀ ts ∈ m.1.createdAt,
        ∀ f ∈ w.floor, f ≤ ts.toSystem := by
      intro m hm ts hts f hf
      obtain ⟨f', hf', hle⟩ := hraise f hf
      exact hle.trans (hfloor m hm ts hts f' hf')
    simp only [judgeAll, accepted]
    cases hv : (judge b w req).1.valid with
    | false => exact ⟨hlow, hsorted⟩
    | true =>
      simp only [if_true, List.mem_cons, forall_eq_or_imp, List.pairwise_cons]
      refine ⟨⟨fun ts hts => (haccept hv ts hts).1, hlow⟩, fun m hm ts hts ts' hts' => ?_, hsorted⟩
      exact hfloor m hm ts' hts' _ (haccept hv ts hts).2

/-- The clock reads for accepted requests without a time are not after the times of the
explicit ones behind them. -/
def stampsInOrder (members : List (PublishRequest × List ForgeEvent)) (clock : ℕ → Timestamp)
    (seq : ℕ) : Bool :=
  (members.zipIdx seq).Pairwise fun m m' => m.1.1.createdAt = none →
    ∀ ts ∈ m'.1.1.createdAt, (clock m.2).toSystem ≤ ts.toSystem

/-- In a batch with clock reads in order, no entry before an explicit one is later. -/
theorem accepted_times {b : Basis} {reqs : List PublishRequest} {clock : ℕ → Timestamp} {seq : ℕ}
    (hrefs : updatesRefs reqs)
    (hstamps : stampsInOrder (accepted reqs (verifyBatch b reqs).1) clock seq) {j k : ℕ}
    (hjk : j < k) {m m' : PublishRequest × List ForgeEvent} {ts : Timestamp}
    (hm : (accepted reqs (verifyBatch b reqs).1)[k]? = some m) (hts : m.1.createdAt = some ts)
    (hm' : (accepted reqs (verifyBatch b reqs).1)[j]? = some m') :
    (m'.1.createdAt.getD (clock (seq + j))).toSystem ≤ ts.toSystem := by
  set members := accepted reqs (verifyBatch b reqs).1 with hmembers
  have hsorted : members.Pairwise fun m m' => ∀ ts ∈ m.1.createdAt, ∀ ts' ∈ m'.1.createdAt,
      ts.toSystem ≤ ts'.toSystem := (judgeAll_times b hrefs).2
  obtain ⟨hk, hmk⟩ := List.getElem?_eq_some_iff.mp hm
  obtain ⟨hj, hmj⟩ := List.getElem?_eq_some_iff.mp hm'
  cases hcreated : m'.1.createdAt with
  | some ts' =>
    have hpair := List.pairwise_iff_getElem.mp hsorted j k hj hk hjk
    rw [hmj, hmk] at hpair
    exact hpair ts' hcreated ts hts
  | none =>
    have hpair := List.pairwise_iff_getElem.mp (of_decide_eq_true hstamps) j k
      (by simpa using hj) (by simpa using hk) hjk
    simp only [List.getElem_zipIdx, hmj, hmk] at hpair
    exact hpair hcreated ts hts

end Batches

section Claims

variable [Text.CharTables] {cfg : Config} {w w' : World}

/-- A claim is written by the action that claims its slot, with the clock of that action. -/
theorem step_writes {action : Action} (h : step cfg w action = some w') {o : Origin}
    (ho : o ∈ w'.claims) : o ∈ w.claims ∨
      ∃ t uuid clock reply task burned es, action = .claim t uuid clock reply ∧
        w.tasks t = some task ∧ task.job = o.job ∧
        task.phase = .claiming o.attempt o.slot.firstSeq burned ∧
        o.job.entries o.attempt clock o.slot.firstSeq = .ok es ∧
        o.slot.bytes = withNonce o.slot.nonce es := by
  cases action with
  | claim t uuid clock reply =>
    obtain ⟨task, a, seq, burned, htask, hphase, h⟩ := step_claim h
    cases reply with
    | delivered =>
      simp only [World.claim] at h
      split_ifs at h
      split at h
      · cases h
      · rename_i es hes
        split at h <;> cases h
        · rcases List.mem_cons.mp ho with rfl | ho
          · exact Or.inr ⟨t, uuid, clock, _, task, burned, es, rfl, htask, rfl, hphase, hes, rfl⟩
          · exact Or.inl ho
        · exact Or.inl ho
    | lost message =>
      simp only [World.claim] at h
      split_ifs at h
      split at h <;> cases h
      exact Or.inl ho
  | start t job =>
    obtain ⟨-, rfl⟩ := step_start h
    exact Or.inl ho
  | capture t a =>
    obtain ⟨task, -, -, -, rfl⟩ := step_capture h
    exact Or.inl ho
  | abort t message =>
    obtain ⟨task, -, -, rfl⟩ := step_abort h
    exact Or.inl ho
  | probe t failure =>
    obtain ⟨task, a, seq, burned, probes, -, -, h | ⟨e, rfl⟩⟩ := step_probe h
    · obtain ⟨_, rfl, -⟩ := probe_sets h
      exact Or.inl ho
    · exact Or.inl ho
  | head t failure =>
    obtain ⟨task, a, seq, burned, probes, -, -, rfl | ⟨e, rfl⟩⟩ := step_head h
    · obtain ⟨_, hw, -⟩ := head_sets w t task a seq burned probes
      rw [hw] at ho
      exact Or.inl ho
    · exact Or.inl ho
  | refuse t message dropSlot =>
    obtain ⟨task, -, -, rfl | ⟨a, σ, -, rfl⟩⟩ := step_refuse h <;> exact Or.inl ho
  | swap t now reply =>
    obtain ⟨task, a, σ, -, -, h⟩ := step_swap h
    simp only [World.swap, Option.bind_eq_bind, Option.bind_eq_some_iff] at h
    obtain ⟨m, -, h⟩ := h
    split at h
    · split_ifs at h <;> cases h <;> exact Or.inl ho
    · split at h <;> cases h <;> exact Or.inl ho
  | reread t failure =>
    obtain ⟨task, a, σ, message, -, -, h | ⟨e, rfl⟩⟩ := step_reread h
    · obtain ⟨_, rfl, -⟩ := reread_sets h
      exact Or.inl ho
    · exact Or.inl ho
  | confirm t failure =>
    obtain ⟨task, a, σ, m, v, message, -, -, rfl | ⟨e, rfl⟩⟩ := step_confirm h
    · obtain ⟨_, hw, -⟩ := confirm_sets w t task a σ m v message
      rw [hw] at ho
      exact Or.inl ho
    · exact Or.inl ho
  | finish t =>
    obtain ⟨task, a, σ, m, v, -, -, rfl⟩ := step_finish h
    exact Or.inl ho
  | crash t =>
    obtain ⟨task, -, -, rfl⟩ := step_crash h
    exact Or.inl ho
  | rewrite job basis version policy writer now reply =>
    obtain ⟨m, -, -, rfl | rfl⟩ := step_rewrite h
    · exact Or.inl (land_claims w _ ▸ ho)
    · exact Or.inl ho
  | land k =>
    obtain ⟨r, -, rfl⟩ := step_land h
    rw [land_claims] at ho
    exact Or.inl ho
  | lose k =>
    obtain rfl := step_lose h
    exact Or.inl ho

end Claims

/-- The floor is at or above the times of the committed entries up to a position. -/
def floorCovers (log : List LogEntry) (n : ℕ) (floor : Option ℕ) : Bool :=
  log.all fun e => n < e.seq || e.createdAt.all fun t => floor.any fun f => t.toSystem ≤ f

theorem floorCovers_iff {log : List LogEntry} {n : ℕ} {floor : Option ℕ} :
    floorCovers log n floor ↔ ∀ e ∈ log, e.seq ≤ n → ∀ t ∈ e.createdAt,
      ∃ f ∈ floor, t.toSystem ≤ f := by
  simp only [floorCovers, List.all_eq_true, Bool.or_eq_true, decide_eq_true_eq, Option.all_eq_true,
    Option.any_eq_true, ← not_le, ← imp_iff_not_or, Option.mem_def]

section Timely

variable [Text.CharTables] {cfg : Config} {w w' : World}

/-- The requests with a time of their own update refs, and if there is one the floor covers
the log up to the basis. -/
def Basis.timely (log : List LogEntry) (b : Basis) (reqs : List PublishRequest) : Bool :=
  updatesRefs reqs &&
    (reqs.all (fun req => req.createdAt.isNone) ||
      floorCovers log b.manifest.headSeq b.lastEntryTime)

/-- A basis somebody committed, with a floor that covers it. -/
structure Attempt.Timely (w : World) (job : Job) (a : Attempt) : Prop where
  generated : ∃ g ∈ w.gens, g.manifest = a.basis.manifest
  timely : ∀ reqs, job = .batch reqs → a.basis.timely (committedEntries w.gens) reqs

/-- The entries of a batch, with clock reads in order. -/
def Origin.Stamped (o : Origin) : Prop :=
  ∀ reqs, o.job = .batch reqs → ∃ clock,
    stampsInOrder (accepted reqs (verifyBatch o.attempt.basis reqs).1) clock o.slot.firstSeq ∧
    o.slot.bytes = withNonce o.slot.nonce (buildEntries o.attempt.writer o.attempt.startedAt clock
      o.slot.firstSeq (accepted reqs (verifyBatch o.attempt.basis reqs).1))

structure World.Timely (w : World) : Prop where
  tasks : ∀ t task a, w.tasks t = some task → task.phase.attempt = some a → a.Timely w task.job
  claims : ∀ o ∈ w.claims, o.attempt.Timely w o.job ∧ o.Stamped

omit [Text.CharTables] in
/-- New entries lie above every basis. -/
theorem Attempt.Timely.grow {job : Job} {a : Attempt} (h : a.Timely w job) (hgrow : w.Grows w') :
    a.Timely w' job where
  generated := by
    obtain ⟨g, hg, heq⟩ := h.generated
    exact ⟨g, hgrow.gens hg, heq⟩
  timely := by
    intro reqs hjob
    have htimely := h.timely reqs hjob
    simp only [Basis.timely, Bool.and_eq_true, Bool.or_eq_true, floorCovers_iff] at htimely ⊢
    refine ⟨htimely.1, htimely.2.imp_right fun hcovers e he hle => ?_⟩
    obtain ⟨g, hg, heq⟩ := h.generated
    obtain ⟨new, hlog, hnew⟩ := hgrow.log
    rw [hlog, List.mem_append] at he
    rcases he with he | he
    · exact hcovers e he hle
    · have hlt := hnew e he _ (Or.inr ⟨g, hg, congrArg Manifest.headSeq heq⟩)
      omega

/-- Captures and claims in order keep all attempts in order. -/
theorem World.Timely.step (h : w.Timely) (hinv : Inv cfg w) {action : Action}
    (hstep : step cfg w action = some w')
    (hcapture : ∀ t a, action = .capture t a → ∀ task, w.tasks t = some task →
      ∀ reqs, task.job = .batch reqs → a.basis.timely (committedEntries w.gens) reqs)
    (hclaim : ∀ t uuid clock reply, action = .claim t uuid clock reply → ∀ task a seq burned,
      w.tasks t = some task → task.phase = .claiming a seq burned → ∀ reqs,
        task.job = .batch reqs →
          stampsInOrder (accepted reqs (verifyBatch a.basis reqs).1) clock seq) :
    w'.Timely := by
  have hgrow := step_grows hinv hstep
  refine ⟨fun t task' a htask' ha => ?_, fun o ho => ?_⟩
  · rcases step_attempts hstep htask' ha with ⟨task, htask, hjob, ha⟩ | ⟨rfl, hhold⟩
    · exact hjob ▸ (h.tasks t task a htask ha).grow hgrow
    · obtain ⟨task, htask, -, -, rfl⟩ := step_capture hstep
      have hjob : task'.job = task.job := by
        have hself : captured task a = task' := by simpa [World.setTask] using htask'
        rw [← hself, captured_job]
      refine Attempt.Timely.grow ⟨?_, fun reqs hreqs => ?_⟩ hgrow
      · simp only [World.canHold] at hhold
        split at hhold
        · obtain ⟨g, hg, heq⟩ := List.any_eq_true.mp hhold
          simp only [Bool.and_eq_true, decide_eq_true_eq] at heq
          exact ⟨g, hg, heq.1⟩
        · obtain ⟨g, hg, heq⟩ := List.any_eq_true.mp hhold
          exact ⟨g, hg, of_decide_eq_true heq⟩
      · exact hcapture t a rfl task htask reqs (hjob ▸ hreqs)
  · rcases step_writes hstep ho with ho | ⟨t, uuid, clock, reply, task, burned, es, rfl, htask,
      hjob, hphase, hes, hbytes⟩
    · exact ⟨(h.claims o ho).1.grow hgrow, (h.claims o ho).2⟩
    · have hattempt : task.phase.attempt = some o.attempt := by rw [hphase]; rfl
      refine ⟨hjob ▸ (h.tasks t task _ htask hattempt).grow hgrow, fun reqs hreqs => ?_⟩
      refine ⟨clock, hclaim t uuid clock reply rfl task _ _ _ htask hphase reqs (hjob.trans hreqs),
        ?_⟩
      rw [hreqs] at hes
      cases hes
      exact hbytes

/-- Every committed entry of a request with a time of its own has that time, and no entry
before it is later. -/
def World.ExplicitMonotone (w : World) : Prop :=
  ∀ g ∈ w.gens, ∀ o, g.origin = some o → ∀ reqs, o.job = .batch reqs →
    ∀ (k : ℕ) (m : PublishRequest × List ForgeEvent) (ts : Timestamp), (accepted reqs (verifyBatch o.attempt.basis reqs).1)[k]? = some m →
      m.1.createdAt = some ts →
        ∃ e : LogEntry, o.slot.bytes[k]? = some e ∧ e.createdAt = some ts ∧
          ∀ e' ∈ committedEntries w.gens, e'.seq < e.seq → ∀ t ∈ e'.createdAt,
            t.toSystem ≤ ts.toSystem

theorem World.Timely.monotone (h : w.Timely) (hinv : Inv cfg w) : w.ExplicitMonotone := by
  intro g hg o ho reqs hjob k m ts hm hts
  have hclaim := hinv.claims o (hinv.claimed o ⟨g, hg, ho⟩)
  obtain ⟨hattempt, hstamped⟩ := h.claims o (hinv.claimed o ⟨g, hg, ho⟩)
  obtain ⟨clock, hstamps, hbytes⟩ := hstamped reqs hjob
  have htimely := hattempt.timely reqs hjob
  simp only [Basis.timely, Bool.and_eq_true, Bool.or_eq_true, floorCovers_iff] at htimely
  obtain ⟨hrefs, hcovers⟩ := htimely
  have hmem : m ∈ accepted reqs (verifyBatch o.attempt.basis reqs).1 := List.mem_of_getElem? hm
  have hwritten := written_getElem? o.slot.nonce o.attempt.writer o.attempt.startedAt clock
    o.slot.firstSeq (accepted reqs (verifyBatch o.attempt.basis reqs).1)
  rw [← hbytes] at hwritten
  obtain ⟨e, he, heq⟩ := Option.map_eq_some_iff.mp ((hwritten k).trans (congrArg _ hm))
  simp only [hts, Option.getD_some, Prod.mk.injEq] at heq
  obtain ⟨hseq, hcreated⟩ := heq
  refine ⟨e, he, hcreated, fun e' he' hlt t ht => ?_⟩
  by_cases hle : e'.seq ≤ o.attempt.basis.manifest.headSeq
  · have hexplicit : ¬reqs.all (fun req => req.createdAt.isNone) = true := by
      intro hall
      have hnone := List.all_eq_true.mp hall m.1 (accepted_subset m hmem)
      simp [hts] at hnone
    obtain ⟨f, hf, htf⟩ := hcovers.resolve_left hexplicit e' he' hle t ht
    exact htf.trans ((judgeAll_times o.attempt.basis hrefs).1 m hmem ts hts f hf)
  · have hin : e' ∈ o.slot.bytes := by
      rw [← hinv.chain.span hg ho le_rfl hclaim.burned.1]
      have hlast := (hclaim.wrote.mem_seq (List.mem_of_getElem? he)).2
      exact Replay.mem_between.mpr ⟨he', not_le.mp hle, by omega⟩
    obtain ⟨j, hj⟩ := List.mem_iff_getElem?.mp hin
    obtain ⟨m', hm', heq⟩ := Option.map_eq_some_iff.mp ((hwritten j).symm.trans (congrArg _ hj))
    simp only [Prod.mk.injEq] at heq
    have hjk : j < k := by omega
    rw [Option.mem_def, ← heq.2, Option.some.injEq] at ht
    rw [← ht]
    exact accepted_times hrefs hstamps hjk hm hts hm'

end Timely

namespace Copy

variable (c : Copy) (read : ℕ → ℕ → Option (List LogEntry))

/-- What `replay_log` reads when `apply_delta` gets to it. -/
def replayed (m : Manifest) (fault : Option Fault) : List LogEntry :=
  let r := c.loadCheckpoint m fault
  if fault = some .early || !r.2 || fault = some .fetch then []
  else
    let after := r.1.handle.state.appliedSeq
    if after < m.headSeq then (read after m.headSeq).getD [] else []

def syncReplayed (m : Manifest) (version : ℕ) (fault : Option Fault) : List LogEntry :=
  if c.handle.version = some version || m.revision < c.handle.manifest.revision ||
      c.handle.version.isSome && m.revision = c.handle.manifest.revision then []
  else c.replayed read m fault

def rematerializeReplayed (m : Manifest) (fault : Option Fault) : List LogEntry :=
  (c.setState { c.handle.state with appliedSeq := 0 }).replayed read m fault

def openReplayed (site : ℕ) (disk : Disk) (m : Manifest) (version : ℕ) (fault : Option Fault) :
    List LogEntry :=
  if disk.saved.appliedSeq < m.headSeq || disk.saved.revision ≠ m.revision then
    replayed ⟨disk, ⟨site, m, some version, disk.saved, none⟩⟩ read m fault
  else []

def batchReplayed (m : Manifest) (lastSeq : ℕ) (fault : Option CommitFault) : List LogEntry :=
  if c.handle.state.appliedSeq < m.headSeq && lastSeq < m.headSeq then
    c.replayed read m (CommitFault.delta fault)
  else []

def oneReplayed (job : Job) (m : Manifest) (seq : ℕ) (fault : Option CommitFault) :
    List LogEntry :=
  if seq < m.headSeq && c.handle.state.appliedSeq < m.headSeq && !job.isControl then
    c.replayed read m (CommitFault.delta fault)
  else []

end Copy

/-- `replay_log` takes the time of the last entry it read. -/
def noteReplay (floor : Option ℕ) (es : List LogEntry) : Option ℕ :=
  es.getLast?.elim floor (noteEntryTime floor)

/-- The system with `last_entry_time` of every handle. -/
structure Timed where
  cluster : Cluster
  floors : ℕ → Option ℕ

namespace Timed

def created (m : Manifest) : Timed := ⟨.created m, fun _ => none⟩

variable (s : Timed)

def note (i : ℕ) (es : List LogEntry) : ℕ → Option ℕ :=
  Function.update s.floors i (noteReplay (s.floors i) es)

section Step

variable [Text.CharTables]

/-- The floor after the local part of a committed task; a compaction or control write also
takes the time of its entry once it has adopted the manifest. -/
def settleFloor (task : Task) (fault : Option CommitFault) (c : Copy) (floor : Option ℕ) :
    Option ℕ :=
  match task.phase with
  | .committed _ σ m version =>
    let read := s.cluster.world.readLog m
    match task.job with
    | .batch _ => noteReplay floor (c.batchReplayed read m σ.lastSeq fault)
    | job =>
      let floor := noteReplay floor (c.oneReplayed read job m σ.firstSeq fault)
      let behind := σ.firstSeq < m.headSeq && c.handle.state.appliedSeq < m.headSeq
      let r := if behind && !job.isControl then
        c.applyDelta read m (CommitFault.delta fault) else (c, true)
      match job with
      | .sealPacks .. => floor
      | _ => if r.2 && (r.1.adopt m version).isSome then noteReplay floor σ.bytes else floor
  | _ => floor

/-- The floor after a batch has folded its entries, which it builds a second time. -/
def finishFloor (task : Task) (clock : ℕ → Timestamp) (floor : Option ℕ) : Option ℕ :=
  match task.phase, task.job with
  | .committed a σ _ _, .batch reqs =>
    ((⟨task.job, a, σ⟩ : Origin).rebuilt reqs clock).foldl noteEntryTime floor
  | _, _ => floor

def floorsAfter : Deed → ℕ → Option ℕ
  | .sync i fault =>
    match s.cluster.copy i, s.cluster.world.current with
    | some c, some (m, v) => s.note i (c.syncReplayed (s.cluster.world.readLog m) m v fault)
    | _, _ => s.floors
  | .view i =>
    match s.cluster.copy i, s.cluster.world.current with
    | some c, some (m, v) => s.note i (c.syncReplayed (s.cluster.world.readLog m) m v none)
    | _, _ => s.floors
  | .rematerialize i fault =>
    match s.cluster.copy i, s.cluster.world.current with
    | some c, some (m, _) => s.note i (c.rematerializeReplayed (s.cluster.world.readLog m) m fault)
    | _, _ => s.floors
  | .openRepo site fault =>
    match s.cluster.world.current with
    | some (m, v) => Function.update s.floors s.cluster.nextHandle
        (noteReplay none (Copy.openReplayed (s.cluster.world.readLog m) site
          ((s.cluster.disks site).getD .init) m v fault))
    | none => s.floors
  | .settle t fault =>
    match s.cluster.world.tasks t, s.cluster.owner t with
    | some task, some i =>
      match s.cluster.copy i with
      | some c => Function.update s.floors i (s.settleFloor task fault c (s.floors i))
      | none => s.floors
    | _, _ => s.floors
  | .finish t clock =>
    match s.cluster.world.tasks t, s.cluster.owner t with
    | some task, some i =>
      Function.update s.floors i (finishFloor task clock (s.floors i))
    | _, _ => s.floors
  | _ => s.floors

/-- A capture takes the floor its handle has. -/
def withFloor : Deed → Deed
  | .capture t policy writer startedAt _ =>
    .capture t policy writer startedAt ((s.cluster.owner t).bind s.floors)
  | d => d

def step (cfg : Config) (s : Timed) (d : Deed) : Option Timed :=
  (s.cluster.step cfg (s.withFloor d)).map fun c => ⟨c, s.floorsAfter d⟩

/-- A batch with explicit times updates refs with each of them and is captured by a handle
whose floor covers the log up to the manifest it holds; no entry of the batch is stamped
later than an explicit time behind it. -/
def timely (s : Timed) : Deed → Bool
  | .capture t .. =>
    (s.cluster.world.tasks t).all fun task => (s.cluster.pins t).all fun p =>
      match task.job with
      | .batch reqs => updatesRefs reqs && (reqs.all (fun req => req.createdAt.isNone) ||
          floorCovers (committedEntries s.cluster.world.gens) p.manifest.headSeq
            ((s.cluster.owner t).bind s.floors))
      | _ => true
  | .store (.claim t _ clock _) =>
    (s.cluster.world.tasks t).all fun task =>
      match task.job, task.phase with
      | .batch reqs, .claiming a seq _ =>
        stampsInOrder (accepted reqs (verifyBatch a.basis reqs).1) clock seq
      | _, _ => true
  | _ => true

/-- In every run whose captures and claims are timely, no entry is later than an explicit
time committed after it. -/
theorem explicit_times_monotone {cfg : Config} {access : Option RepoAccess} {now : Timestamp}
    {writer : String} {deeds : List Deed} {s : Timed}
    (htimely : Runs.AllSteps (step cfg) (fun s d => s.timely d = true)
      (created (createdManifest access now writer)) deeds)
    (hrun : Runs.run (step cfg) (created (createdManifest access now writer)) deeds = some s) :
    s.cluster.world.ExplicitMonotone := by
  suffices h : Inv cfg s.cluster.world ∧ s.cluster.world.Timely from h.2.monotone h.1
  refine Runs.invariant (I := fun s => Inv cfg s.cluster.world ∧ s.cluster.world.Timely)
    (fun s d s' h hd hstep => ?_) hrun htimely
    ⟨inv_created access now writer, by simp [created, Cluster.created, World.created], by
      simp [created, Cluster.created, World.created]⟩
  obtain ⟨c, hc, rfl⟩ := Option.map_eq_some_iff.mp hstep
  obtain ⟨hinv, htimes⟩ := h
  rcases Cluster.step_world hc with heq | ⟨a, hw, hcapture, -, hremote⟩
  · change Inv cfg c.world ∧ c.world.Timely
    rw [heq]
    exact ⟨hinv, htimes⟩
  · refine ⟨hinv.step a hw, htimes.step hinv hw (fun t b heq task htask reqs hjob => ?_)
      fun t uuid clock reply heq task b seq burned htask hphase reqs hjob => ?_⟩
    · obtain ⟨policy, writer, startedAt, last, p, hfloor, hp, hbasis, hlast⟩ := hcapture t b heq
      cases d with
      | capture t' policy' writer' startedAt' last' =>
        cases hfloor
        simp only [timely, htask, hp, hjob, Option.all_some] at hd
        rwa [Basis.timely, hbasis, hlast]
      | _ => cases hfloor
    · have hstore : s.withFloor d = .store a := hremote (by rw [heq]; rfl)
      rw [heq] at hstore
      cases d with
      | store a' =>
        cases hstore
        simpa only [timely, htask, hjob, hphase, Option.all_some] using hd
      | _ => cases hstore

end Step

section Runs

attribute [local instance] Text.asciiTables

def runTimed (deeds : List Deed) : Option Timed :=
  Runs.run (step ⟨3, List.length⟩) (created (createdManifest none ⟨1, 0⟩ "w")) deeds

instance (deeds : List Deed) : Decidable (Runs.AllSteps (step ⟨3, List.length⟩)
    (fun s d => s.timely d = true) (created (createdManifest none ⟨1, 0⟩ "w")) deeds) :=
  Runs.AllSteps.decidable ..

/-- A handle publishes one request while its clock shows `now`. -/
def publishAt (i t : ℕ) (nonce : String) (now : ℤ) (req : PublishRequest) : List Deed :=
  [.start i t (.batch [req]), .pin t, .capture t ⟨"", .empty⟩ "w" ⟨now, 0⟩ none,
    .store (.claim t nonce (fun _ => ⟨now, 0⟩) .delivered), .store (.swap t ⟨now, 0⟩ .delivered),
    .settle t none, .finish t fun _ => ⟨now, 0⟩]

/-- A push of a branch with a time of its own. -/
def replayAt (time : ℤ) : PublishRequest :=
  { Cluster.updating "refs/heads/dev" "" oidA with createdAt := some ⟨time, 0⟩ }

def pushed : List Deed :=
  .openRepo 0 none :: publishAt 0 1 "a" 9 (Cluster.updating "refs/heads/main" "" oidA)

theorem explicit_times_monotone_pushed : ∃ s,
    runTimed (pushed ++ publishAt 0 2 "b" 9 (replayAt 9)) = some s ∧
      (committedEntries s.cluster.world.gens).map LogEntry.seq = [1, 2] ∧
      s.cluster.world.ExplicitMonotone := by
  have hrun : (runTimed (pushed ++ publishAt 0 2 "b" 9 (replayAt 9))).map (fun s =>
      (committedEntries s.cluster.world.gens).map LogEntry.seq) = some [1, 2] := by decide +kernel
  obtain ⟨s, hs, hseqs⟩ := Option.map_eq_some_iff.mp hrun
  exact ⟨s, hs, hseqs, explicit_times_monotone (by decide) hs⟩

/-- The process starts again over its copy and does not know the time of the head. -/
def restarted : List Deed :=
  pushed ++ [.stop 0, .openRepo 0 none] ++ publishAt 1 2 "b" 10 (replayAt 5)

theorem explicit_time_not_monotone : ∃ s, runTimed restarted = some s ∧
    (committedEntries s.cluster.world.gens).map LogEntry.createdAt =
      [some ⟨9, 0⟩, some ⟨5, 0⟩] ∧ ¬s.cluster.world.ExplicitMonotone := by
  have hrun : ((runTimed restarted).bind fun s => s.cluster.world.gens.head?.bind fun g =>
      g.origin.map fun o => decide (o.job = .batch [replayAt 5] ∧
        (accepted [replayAt 5] (verifyBatch o.attempt.basis [replayAt 5]).1) =
          [(replayAt 5, [])] ∧
        o.slot.bytes.map LogEntry.seq = [2] ∧
        (∃ e ∈ committedEntries s.cluster.world.gens, e.seq = 1 ∧ e.createdAt = some ⟨9, 0⟩) ∧
        (committedEntries s.cluster.world.gens).map LogEntry.createdAt =
          [some ⟨9, 0⟩, some ⟨5, 0⟩])) = some true := by decide +kernel
  obtain ⟨s, hs, hrest⟩ := Option.bind_eq_some_iff.mp hrun
  obtain ⟨g, hg, hrest⟩ := Option.bind_eq_some_iff.mp hrest
  obtain ⟨o, ho, heq⟩ := Option.map_eq_some_iff.mp hrest
  obtain ⟨hjob, haccepted, hbytes, ⟨e', he', hseq', htime'⟩, htimes⟩ := of_decide_eq_true heq
  refine ⟨s, hs, htimes, fun hmonotone => ?_⟩
  obtain ⟨e, he, -, hbefore⟩ := hmonotone g (List.mem_of_mem_head? hg) o ho _ hjob 0
    (replayAt 5, []) ⟨5, 0⟩ (by rw [haccepted]; rfl) rfl
  have hseq : e.seq = 2 := by
    have hmap := congrArg (fun l : List ℕ => l[0]?) hbytes
    simpa [he] using hmap
  exact absurd (hbefore e' he' (by omega) ⟨9, 0⟩ htime') (by decide)

end Runs

end Timed

end Walgit
