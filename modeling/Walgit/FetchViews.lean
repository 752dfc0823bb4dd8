import Walgit.Convergence

/-!
# Fetch views

A fetch view pairs the refs of a copy with the manifest its handle holds. The two are
written one after the other, and a call can fail in between. As long as none does, the refs
are the log up to the head of that manifest.
-/
namespace Walgit

open Replay (upTo between)

/-- The log up to a later position is the log up to an earlier one and what is between. -/
theorem refsAt_between {log : List LogEntry} {a b : ℕ} (hsorted : Replay.Sorted LogEntry.seq log)
    (hab : a ≤ b) : foldRefs (refsAt log a) (between LogEntry.seq a b log) = refsAt log b := by
  rw [refsAt, ← foldRefs_append, Replay.upTo_append_between hsorted hab]
  rfl

/-- Entries without a transaction change nothing. -/
theorem refsAt_skip {log : List LogEntry} {a b : ℕ} (hsorted : Replay.Sorted LogEntry.seq log)
    (hab : a ≤ b) (hnone : ∀ e ∈ between LogEntry.seq a b log, e.txn = none) :
    refsAt log a = refsAt log b := by
  have htxns : (between LogEntry.seq a b log).filterMap LogEntry.txn = [] :=
    List.filterMap_eq_nil_iff.mpr hnone
  rw [← refsAt_between hsorted hab, foldRefs, htxns]
  rfl

/-- The copy has applied exactly the log of the manifest its handle holds. -/
structure Copy.Level (w : World) (c : Copy) : Prop where
  refs : c.disk.refs = refsAt (committedEntries w.gens) c.handle.manifest.headSeq
  applied : c.handle.state.appliedSeq = c.handle.manifest.headSeq

namespace Copy

variable {cfg : Config} {w : World} {c c' : Copy} {m : Manifest} {v : ℕ} {g : Generation}

/-- `apply_delta` towards the manifest fails after it has written refs. -/
def tears (c : Copy) (m : Manifest) : Option Fault → Bool
  | none | some .early => false
  | some (.load _) => c.handle.state.appliedSeq < m.checkpointSeq
  | some .fetch =>
    c.handle.state.appliedSeq < m.checkpointSeq && m.checkpointSeq < m.headSeq
  | some (.replay _) => max c.handle.state.appliedSeq m.checkpointSeq < m.headSeq
  | some .save | some .refresh => c.handle.state.appliedSeq < m.headSeq

theorem Level.of_eq (h : c.Level w) (hrefs : c'.disk.refs = c.disk.refs)
    (hman : c'.handle.manifest = c.handle.manifest)
    (happlied : c'.handle.state.appliedSeq = c.handle.state.appliedSeq) : c'.Level w where
  refs := by rw [hrefs, hman, h.refs]
  applied := by rw [happlied, hman, h.applied]

theorem loadCheckpoint_skip {fault : Option Fault}
    (hle : m.checkpointSeq ≤ c.handle.state.appliedSeq) :
    c.loadCheckpoint m fault = (c, true) := by
  unfold loadCheckpoint
  unfold Manifest.checkpointSeq at hle
  cases hcp : m.checkpoint with
  | none => rfl
  | some cp =>
    rw [hcp] at hle
    exact if_pos hle

/-- Only the fault of writing its refs keeps a checkpoint from being loaded. -/
theorem loadCheckpoint_done {fault : Option Fault} (hload : ∀ head, fault ≠ some (.load head)) :
    (c.loadCheckpoint m fault).2 = true := by
  unfold loadCheckpoint
  cases hcp : m.checkpoint with
  | none => rfl
  | some cp =>
    simp only
    split_ifs <;> rfl

variable [Text.CharTables]

/-- Git takes the first transaction of a batch. -/
def begins (c : Copy) (ts : List RefTransaction) : Bool :=
  ts.head?.any fun t => (c.disk.refs.applyRefTxn t).isSome

/-- Applying a batch with git fails after it has written refs. -/
def tearsBatch (c : Copy) (ts : List RefTransaction) (fault : Option CommitFault) : Bool :=
  let whole := (c.disk.refs.applyRefTxns ts).2
  c.begins ts &&
    match fault with
    | some (.apply k plain) => (0 < k || plain) && !(ts.length ≤ k && whole)
    | some .refresh => true
    | _ => !whole

/-- The local part of a committed batch fails after it has written refs. -/
def tearsCommit (c : Copy) (ts : List RefTransaction) (m : Manifest) (lastSeq : ℕ)
    (fault : Option CommitFault) : Bool :=
  if c.handle.state.appliedSeq < m.headSeq && lastSeq < m.headSeq then
    fault = some .refresh || c.tears m (CommitFault.delta fault)
  else if lastSeq ≤ c.handle.state.appliedSeq || m.headSeq ≠ lastSeq then false
  else c.tearsBatch ts fault

/-- The local part of any other committed job does. -/
def tearsOne (c : Copy) (job : Job) (m : Manifest) (seq : ℕ) (fault : Option CommitFault) : Bool :=
  seq < m.headSeq && c.handle.state.appliedSeq < m.headSeq && !job.isControl &&
    c.tears m (CommitFault.delta fault)

/-- A copy at the newest manifest is level with it. -/
theorem Ok.level (hw : w.Sound cfg) (hc : c.Ok w) (hcur : w.current = some (m, v))
    (hm : c.handle.manifest = m) : c.Level w where
  refs := hm ▸ (hc.atHead hw hcur hm).2
  applied := le_antisymm ((boundary_le hw hcur hc.boundary).trans_eq (by rw [hm])) hc.head

/-- A checkpoint that is loaded leaves the refs of the log up to it. -/
theorem loadCheckpoint_level (hw : w.Sound cfg) (hg : g ∈ w.gens)
    (hrefs : c.disk.refs = refsAt (committedEntries w.gens) c.handle.state.appliedSeq)
    {fault : Option Fault} (hdone : (c.loadCheckpoint g.manifest fault).2 = true) :
    let r := (c.loadCheckpoint g.manifest fault).1
    r.disk.refs = refsAt (committedEntries w.gens) r.handle.state.appliedSeq := by
  intro r
  simp only [r]
  unfold loadCheckpoint at hdone ⊢
  cases hcp : g.manifest.checkpoint with
  | none => exact hrefs
  | some cp =>
    simp only [hcp] at hdone ⊢
    split_ifs at hdone ⊢ with hnew
    · exact hrefs
    · have hsnap : c.disk.refs.loadRefSnapshot cp.refs =
          refsAt (committedEntries w.gens) cp.seq := by
        rw [hw.checkpoints g hg cp hcp]
        simp only [RefState.loadRefSnapshot, refsAt, foldRefs_headTarget_ne, if_false]
      split at hdone
      · cases hdone
      · exact hsnap

theorem replayLog_level (hw : w.Sound cfg) (hg : g ∈ w.gens) {after : ℕ}
    (hcp : g.manifest.checkpointSeq ≤ after) (hle : after ≤ g.manifest.headSeq)
    (hrefs : c.disk.refs = refsAt (committedEntries w.gens) after) {fault : Option Fault}
    (hdone : (c.replayLog (w.readLog g.manifest) after g.manifest.headSeq fault).2 = true) :
    (c.replayLog (w.readLog g.manifest) after g.manifest.headSeq fault).1.disk.refs =
      refsAt (committedEntries w.gens) g.manifest.headSeq := by
  rw [replayLog_eq hw hg hcp fault] at hdone ⊢
  split_ifs at hdone ⊢
  split at hdone
  · cases hdone
  · change foldRefs c.disk.refs _ = _
    rw [hrefs, refsAt_between hw.inv.chain.sorted hle]

/-- What `apply_delta` reaches is the log up to the head, if the copy was at some position. -/
theorem applyDelta_level (hw : w.Sound cfg) (hg : g ∈ w.gens) (hc : c.Reaches w)
    (hle : c.handle.state.appliedSeq ≤ g.manifest.headSeq)
    (hrefs : c.disk.refs = refsAt (committedEntries w.gens) c.handle.state.appliedSeq)
    {fault : Option Fault} (hdone : (c.applyDelta (w.readLog g.manifest) g.manifest fault).2 = true) :
    (c.applyDelta (w.readLog g.manifest) g.manifest fault).1.disk.refs =
      refsAt (committedEntries w.gens) g.manifest.headSeq := by
  obtain ⟨hreach, -, -, hhead, hcp, -⟩ := loadCheckpoint_spec hw hg hc hle fault
  have hload (hdone : (c.loadCheckpoint g.manifest fault).2 = true) :=
    loadCheckpoint_level hw hg hrefs hdone
  set r := c.loadCheckpoint g.manifest fault with hr
  unfold applyDelta at hdone ⊢
  simp only [← hr] at hdone ⊢
  split_ifs at hdone ⊢ with hearly hfail hbehind hreplay
  · exact absurd hdone (by simpa using hfail)
  · exact absurd hdone (by simpa using hreplay)
  all_goals
    have hok : r.2 = true := by simpa using hfail
  · exact replayLog_level hw hg (hcp hok) hhead (hload hok) (by simpa using hreplay)
  · change r.1.disk.refs = _
    rw [hload hok, le_antisymm hhead (not_lt.mp hbehind)]

/-- A call that fails before it writes refs leaves the copy where it was. -/
theorem applyDelta_untouched (hw : w.Sound cfg) (hg : g ∈ w.gens) (hc : c.Reaches w)
    (hle : c.handle.state.appliedSeq ≤ g.manifest.headSeq) {fault : Option Fault}
    (hfail : (c.applyDelta (w.readLog g.manifest) g.manifest fault).2 = false)
    (htears : c.tears g.manifest fault = false) :
    let r := (c.applyDelta (w.readLog g.manifest) g.manifest fault).1
    r.disk.refs = c.disk.refs ∧ r.handle.manifest = c.handle.manifest ∧
      r.handle.state.appliedSeq = c.handle.state.appliedSeq := by
  intro r
  obtain ⟨-, -, -, hhead, hcp, -⟩ := loadCheckpoint_spec hw hg hc hle fault
  obtain ⟨-, -, -, hok⟩ := applyDelta_spec hw hg hc hle fault
  have hcphead := (boundary_checkpoint hw hg).2
  simp only [r]
  -- Over a checkpoint at the head there is nothing left to replay.
  have hover : ∀ f, fault = some f → f ≠ .early → (∀ head, f ≠ .load head) → f ≠ .save →
      f ≠ .refresh → g.manifest.headSeq ≤ g.manifest.checkpointSeq → False := by
    rintro f rfl hearly hload hsave hrefresh hall
    have hdone : (c.loadCheckpoint g.manifest (some f)).2 = true :=
      loadCheckpoint_done fun head heq => hload head (Option.some.inj heq)
    have hat : ¬(c.loadCheckpoint g.manifest (some f)).1.handle.state.appliedSeq <
        g.manifest.headSeq := not_lt.mpr (hall.trans (hcp hdone))
    simp [applyDelta, hdone, hat, hearly, hsave, hrefresh] at hfail
  by_cases hbehind : c.handle.state.appliedSeq < g.manifest.headSeq
  · cases fault with
    | none => exact absurd (hok rfl) (by simp [hfail])
    | some f =>
      cases f with
      | early => simp [applyDelta]
      | load head =>
        have hskip : g.manifest.checkpointSeq ≤ c.handle.state.appliedSeq := by
          simpa [tears] using htears
        simp [applyDelta, loadCheckpoint_skip hskip, replayLog_eq hw hg hskip, hbehind] at hfail
      | fetch =>
        by_cases hskip : g.manifest.checkpointSeq ≤ c.handle.state.appliedSeq
        · simp [applyDelta, loadCheckpoint_skip hskip, replayLog_eq hw hg hskip, hbehind]
        · simp only [tears, Bool.and_eq_false_iff, decide_eq_false_iff_not] at htears
          exact (hover .fetch rfl (by simp) (by simp) (by simp) (by simp) (by omega)).elim
      | replay head =>
        simp only [tears, decide_eq_false_iff_not] at htears
        exact (hover (.replay head) rfl (by simp) (by simp) (by simp) (by simp) (by omega)).elim
      | save => simp [tears, hbehind] at htears
      | refresh => simp [tears, hbehind] at htears
  · have hskip : g.manifest.checkpointSeq ≤ c.handle.state.appliedSeq := by omega
    have heq : c.handle.state.appliedSeq = g.manifest.headSeq := by omega
    unfold applyDelta
    rw [loadCheckpoint_skip hskip]
    split_ifs <;> simp [record, heq]

theorem applyBatch_handle (ts : List RefTransaction) (fault : Option CommitFault) :
    (c.applyBatch ts fault).1.handle = c.handle := by
  unfold applyBatch
  split
  · simp only
    split_ifs
    · rfl
    · split
      · rfl
      · split_ifs <;> rfl
  · rfl

/-- Git refuses the first transaction: nothing is written. -/
theorem applyBatch_refused {ts : List RefTransaction} (hbegins : c.begins ts = false)
    (fault : Option CommitFault) : (c.applyBatch ts fault).1.disk.refs = c.disk.refs := by
  have hrefused : ∀ k, (c.disk.refs.applyRefTxns (ts.take k)).1 = c.disk.refs := by
    intro k
    cases ts with
    | nil => simp [RefState.applyRefTxns]
    | cons t ts =>
      have hnone : c.disk.refs.applyRefTxn t = none := by simpa [begins] using hbegins
      cases k with
      | zero => rfl
      | succ k => simp [RefState.applyRefTxns, hnone]
  have hall : (c.disk.refs.applyRefTxns ts).1 = c.disk.refs := by
    rw [← List.take_length (l := ts)]
    exact hrefused ts.length
  unfold applyBatch
  split
  · rename_i k plain
    simp only
    split_ifs with hok
    · exact hrefused k
    · split
      · exact hrefused k
      · rename_i t ht
        split_ifs with hplain
        · -- The transaction whose plain updates were written is not the first.
          simp only [Bool.and_eq_true] at hplain
          cases k with
          | zero =>
            rw [List.take_zero] at hplain
            have hhead : ts.head? = some t := by rw [List.head?_eq_getElem?]; exact ht
            simp [begins, hhead] at hbegins
            simp [RefState.applyRefTxns, hbegins] at hplain
          | succ k =>
            cases ts with
            | nil => simp at ht
            | cons t' ts =>
              have hnone : c.disk.refs.applyRefTxn t' = none := by simpa [begins] using hbegins
              simp [RefState.applyRefTxns, hnone] at hok
        · exact hrefused k
  · exact hall

/-- A batch git takes as a whole is what the log means by it. -/
theorem applyBatch_done {ts : List RefTransaction} (hplain : ∀ t ∈ ts, t.plainHead = false)
    {fault : Option CommitFault} (hdone : (c.applyBatch ts fault).2 = true) :
    (c.applyBatch ts fault).1.disk.refs = c.disk.refs.applyTxns ts := by
  have hwhole : ∀ us : List RefTransaction, us = ts → (c.disk.refs.applyRefTxns us).2 = true →
      (c.disk.refs.applyRefTxns us).1 = c.disk.refs.applyTxns ts := by
    rintro us rfl hok
    obtain ⟨done, rest, hsplit, hrefs, hall⟩ := c.disk.refs.applyRefTxns_eq hplain
    rw [hall hok, List.append_nil] at hsplit
    rw [hrefs, ← hsplit]
  unfold applyBatch at hdone ⊢
  split
  · rename_i k plain
    simp only at hdone ⊢
    split_ifs at hdone ⊢ with hok
    split
    · rename_i hnone
      have htake : ts.take k = ts := List.take_of_length_le (List.getElem?_eq_none_iff.mp hnone)
      exact hwhole _ htake (by simpa using hok)
    · rename_i t ht
      simp only [ht] at hdone
      split_ifs at hdone
  · rename_i hother
    split at hdone
    · rename_i k plain
      exact absurd rfl (hother k plain)
    · exact hwhole ts rfl hdone

/-- A batch that fails before it writes refs leaves the copy where it was. -/
theorem applyBatch_untouched {ts : List RefTransaction} {fault : Option CommitFault}
    (hfail : (c.applyBatch ts fault).2 = false ∨ fault = some .refresh)
    (htears : c.tearsBatch ts fault = false) :
    (c.applyBatch ts fault).1.disk.refs = c.disk.refs := by
  by_cases hbegins : c.begins ts = true
  · simp only [tearsBatch, hbegins, Bool.true_and] at htears
    split at htears
    · rename_i k plain
      have hfail := hfail.resolve_right (by simp)
      rcases Bool.and_eq_false_iff.mp htears with hfirst | hall
      · simp only [Bool.or_eq_false_iff, decide_eq_false_iff_not, not_lt, Nat.le_zero_eq] at hfirst
        obtain ⟨rfl, rfl⟩ := hfirst
        simp only [applyBatch, List.take_zero, RefState.applyRefTxns, Bool.not_true,
          Bool.false_eq_true, if_false, Bool.false_and]
        split <;> rfl
      · simp only [Bool.not_eq_false', Bool.and_eq_true, decide_eq_true_eq] at hall
        have htake : ts.take k = ts := List.take_of_length_le hall.1
        have hnone : ts[k]? = none := List.getElem?_eq_none_iff.mpr hall.1
        simp [applyBatch, htake, hall.2, hnone] at hfail
    · cases htears
    · rename_i hother hrefresh
      have hwhole : (c.disk.refs.applyRefTxns ts).2 = true := by simpa using htears
      have hfail := hfail.resolve_right fun h => hrefresh h
      unfold applyBatch at hfail
      split at hfail
      · exact absurd rfl (hother _ _)
      · rw [hwhole] at hfail
        cases hfail
  · exact applyBatch_refused (by simpa using hbegins) fault

/-- A commit that is applied is adopted; one that is not newer leaves the copy alone. -/
theorem adoptRecord_level (hw : w.Sound cfg) (hc : c.Ok w) (hl : c.Level w)
    (hm : w.Generated m v) (hman : c'.handle.manifest = c.handle.manifest)
    (hat : c.handle.manifest.headSeq ≤ m.headSeq →
      c'.disk.refs = refsAt (committedEntries w.gens) m.headSeq)
    (hback : m.headSeq ≤ c.handle.manifest.headSeq → c' = c) (saves : Bool) :
    Level w (match c'.adopt m v with
      | some c => c.record ⟨m.headSeq, m.revision⟩ saves
      | none => c') := by
  split
  · rename_i c₁ hadopt
    obtain ⟨hrev, rfl⟩ := adopt_eq_some hadopt
    rw [hman] at hrev
    exact ⟨hat (Held.head_le hw hc.held hm hrev), rfl⟩
  · rename_i hrefused
    have hold : m.revision < c.handle.manifest.revision := by
      by_contra hle
      rw [adopt_of_le (hman ▸ not_lt.mp hle)] at hrefused
      cases hrefused
    obtain ⟨g, hg, hgm, -⟩ := hc.held
    obtain ⟨g', hg', rfl, -⟩ := hm
    rw [← hgm] at hold hback
    rcases hw.inv.chain.of_revision_le hg' hg hold.le with rfl | ⟨-, hle⟩
    · exact absurd hold (lt_irrefl _)
    · exact (hback hle) ▸ hl

/-- The local part of a committed batch, unless it fails halfway through the refs. -/
theorem settleBatch_level (hw : w.Sound cfg) (hc : c.Ok w) (hl : c.Level w) {o : Origin}
    (hs : Settles w c o m v) {reqs : List PublishRequest} (hjob : o.job = .batch reqs)
    {fault : Option CommitFault} :
    let ts := (accepted reqs (verifyBatch o.attempt.basis reqs).1).map fun p => p.1.txn
    c.tearsCommit ts m o.slot.lastSeq fault = false →
      (c.settleBatch (w.readLog m) ts m v o.slot.lastSeq fault).Level w := by
  intro ts htears
  obtain ⟨hfold, hplain, -⟩ := batch_txns hw hs.committed hjob
  have hsorted := hw.inv.chain.sorted
  have hrefs : c.disk.refs = refsAt (committedEntries w.gens) c.handle.state.appliedSeq :=
    hl.applied ▸ hl.refs
  have hlisted := hs.listed
  have happlied := hl.applied
  -- A step that ends before the adoption has left the refs alone.
  have stays : ∀ c' : Copy, c'.disk.refs = c.disk.refs →
      c'.handle.manifest = c.handle.manifest →
      c'.handle.state.appliedSeq = c.handle.state.appliedSeq → c'.forget.Level w :=
    fun c' h₁ h₂ h₃ => Level.of_eq hl h₁ h₂ h₃
  unfold tearsCommit at htears
  unfold settleBatch
  simp only
  split_ifs at htears ⊢ with hbehind hdone hskip hdone hdone
  · simp only [Bool.and_eq_true, decide_eq_true_eq] at hbehind hdone
    obtain ⟨g, hg, rfl, rfl⟩ := hs.generated
    obtain ⟨-, hadv, -⟩ := applyDelta_spec hw hg hc.toReaches hbehind.1.le (CommitFault.delta fault)
    refine adoptRecord_level hw hc hl ⟨g, hg, rfl, rfl⟩ hadv.manifest (fun _ => ?_)
      (fun hle => by omega) _
    exact applyDelta_level hw hg hc.toReaches hbehind.1.le hrefs hdone.1
  · simp only [Bool.and_eq_true, decide_eq_true_eq] at hbehind
    simp only [Bool.or_eq_false_iff, decide_eq_false_iff_not] at htears
    obtain ⟨g, hg, rfl, rfl⟩ := hs.generated
    obtain ⟨hrefs', hman, hstate⟩ := applyDelta_untouched hw hg hc.toReaches hbehind.1.le
      (by simpa [htears.1] using hdone) htears.2
    exact stays _ hrefs' hman hstate
  · have hle : m.headSeq ≤ c.handle.state.appliedSeq := by
      simp only [Bool.and_eq_true, decide_eq_true_eq, Bool.or_eq_true, ne_eq] at hbehind hskip
      omega
    refine adoptRecord_level hw hc hl hs.generated rfl (fun hge => ?_) (fun _ => rfl) _
    rw [hl.refs, le_antisymm hge (hle.trans_eq happlied)]
  · exact stays c rfl rfl rfl
  · simp only [Bool.or_eq_true, decide_eq_true_eq, not_or, not_le, ne_eq, not_not] at hskip
    simp only [Bool.and_eq_true] at hdone
    refine adoptRecord_level hw hc hl hs.generated (by rw [applyBatch_handle]) (fun _ => ?_)
      (fun hle => by omega) _
    have hfirst := boundary_lt hw hc.boundary hs.committed hskip.1
    obtain ⟨g, hg, ho⟩ := hs.committed
    rw [applyBatch_done hplain hdone.1, ← hfold, ← hw.inv.chain.span hg ho hs.basis hfirst, hrefs,
      hskip.2, refsAt_between hsorted hskip.1.le]
  · refine stays _ (applyBatch_untouched ?_ htears) (by rw [applyBatch_handle])
      (by rw [applyBatch_handle])
    simp only [Bool.and_eq_true, decide_eq_true_eq, ne_eq, not_and, not_not] at hdone
    cases hr : (c.applyBatch ts fault).2 with
    | false => exact Or.inl rfl
    | true => exact Or.inr (hdone hr)

/-- The local part of any other committed job, unless it fails so. -/
theorem settleOne_level (hw : w.Sound cfg) (hc : c.Ok w) (hl : c.Level w) {o : Origin}
    (hs : Settles w c o m v) (hb : o.job.isBatch = false)
    (hcontrol : o.job.isControl → m.headSeq = o.slot.lastSeq) {fault : Option CommitFault}
    (htears : c.tearsOne o.job m o.slot.firstSeq fault = false) :
    (c.settleOne (w.readLog m) o.job m v o.slot.firstSeq fault).Level w := by
  have hone := hs.lastSeq hw hb
  have hposition := hs.position hw hb hcontrol
  have hrefs : c.disk.refs = refsAt (committedEntries w.gens) c.handle.state.appliedSeq :=
    hl.applied ▸ hl.refs
  have hlisted := hs.listed
  have happlied := hl.applied
  simp only [settleOne, hposition]
  by_cases hbehind : (decide (o.slot.firstSeq < m.headSeq) &&
      decide (c.handle.state.appliedSeq < m.headSeq) && !o.job.isControl) = true
  · rw [if_pos hbehind]
    rw [tearsOne, hbehind, Bool.true_and] at htears
    simp only [Bool.and_eq_true, decide_eq_true_eq] at hbehind
    obtain ⟨g, hg, rfl, rfl⟩ := hs.generated
    have hlt := hbehind.1.2
    obtain ⟨-, hadv, -⟩ := applyDelta_spec hw hg hc.toReaches hlt.le (CommitFault.delta fault)
    by_cases hdone : (c.applyDelta (w.readLog g.manifest) g.manifest (CommitFault.delta fault)).2 =
        true
    · rw [if_pos hdone]
      refine adoptRecord_level hw hc hl ⟨g, hg, rfl, rfl⟩ hadv.manifest (fun _ => ?_)
        (fun hle => by omega) _
      exact applyDelta_level hw hg hc.toReaches hlt.le hrefs hdone
    · rw [if_neg hdone]
      obtain ⟨hrefs', hman, hstate⟩ := applyDelta_untouched hw hg hc.toReaches hlt.le
        (by simpa using hdone) htears
      split_ifs
      · exact Level.of_eq hl hrefs' hman hstate
      · exact Level.of_eq hl hrefs' hman hstate
  · rw [if_neg hbehind]
    -- What is left of the log has no refs in it.
    refine adoptRecord_level hw hc hl hs.generated rfl (fun hge => ?_) (fun _ => rfl) _
    rw [← happlied] at hge
    have hnone : ∀ e ∈ between LogEntry.seq c.handle.state.appliedSeq m.headSeq
        (committedEntries w.gens), e.txn = none := by
      rcases hge.eq_or_lt with heq | hlt
      · rw [heq]
        intro e he
        simp only [between, List.mem_filter, Bool.and_eq_true, decide_eq_true_eq] at he
        omega
      · have heq : m.headSeq = o.slot.lastSeq := by
          by_cases hctl : o.job.isControl
          · exact hcontrol hctl
          · simp only [Bool.and_eq_true, decide_eq_true_eq, not_and, hctl, Bool.not_false] at hbehind
            have : ¬o.slot.firstSeq < m.headSeq := fun h => hbehind ⟨h, hlt⟩ trivial
            omega
        exact hs.unwritten hw hc.toReaches hb (heq ▸ hlt) heq
    rw [hrefs, refsAt_skip hw.inv.chain.sorted hge hnone]

/-- Adopting a committed metadata write leaves the copy level. -/
theorem adoptWrite_level (hw : w.Sound cfg) (hc : c.Ok w) (hl : c.Level w) {p : Adoption}
    (hp : w.Generated p.manifest p.version)
    (hhead : p.manifest.headSeq ≤ c.handle.manifest.headSeq) (saves : Bool) :
    (c.adoptWrite p saves).Level w := by
  unfold adoptWrite
  split
  · exact hl
  · rename_i c₁ hadopt
    obtain ⟨hrev, rfl⟩ := adopt_eq_some hadopt
    have heq : c.handle.manifest.headSeq = p.manifest.headSeq :=
      le_antisymm (Held.head_le hw hc.held hp hrev) hhead
    have hrefs : c.disk.refs = refsAt (committedEntries w.gens) p.manifest.headSeq :=
      heq ▸ hl.refs
    split
    · exact ⟨hrefs, rfl⟩
    · exact ⟨hrefs, hl.applied.trans heq⟩
    · exact ⟨hrefs, hl.applied.trans heq⟩

/-- A sync leaves the copy level unless it fails halfway through the refs. -/
theorem sync_level (hw : w.Sound cfg) (hc : c.Ok w) (hl : c.Level w)
    (hcur : w.current = some (m, v)) {fault : Option Fault} (htears : c.tears m fault = false) :
    (c.sync (w.readLog m) m v fault).1.Level w := by
  obtain ⟨hok, -, hman, -⟩ := sync_spec hw hc hcur fault
  by_cases hdone : (c.sync (w.readLog m) m v fault).2 = true
  · exact hok.level hw hcur (hman hdone)
  · have happlied := boundary_le hw hcur hc.boundary
    obtain ⟨g, hg, rfl, rfl⟩ := hw.inv.current_generated hcur
    simp only [sync] at hdone ⊢
    split_ifs at hdone ⊢ with hversion hold hsame
    · exact hl
    · exact hl
    · exact absurd rfl hdone
    · exact absurd rfl hdone
    · obtain ⟨hrefs, hman, hstate⟩ :=
        applyDelta_untouched hw hg hc.toReaches happlied (by simpa using hdone) htears
      exact hl.of_eq hrefs hman hstate

end Copy

namespace Cluster

/-- The copy of every serving handle is level. -/
def Level (s : Cluster) : Prop :=
  ∀ i c, s.serves i = true → s.copy i = some c → c.Level s.world

/-- A serving handle's copy changes and is level. -/
theorem Level.setCopy {s : Cluster} (hl : s.Level) {i : ℕ} {c c' : Copy} (hserves : s.serves i = true)
    (hc : s.copy i = some c) (hsite : c'.handle.site = c.handle.site) (hlevel : c'.Level s.world) :
    (s.setCopy i c').Level := by
  obtain ⟨-, -, hregistry⟩ := served_iff.mp ⟨hserves, hc⟩
  intro j d hj hd
  obtain ⟨hhandle_j, hdisk_j, hregistry_j⟩ := served_iff.mp ⟨hj, hd⟩
  change Function.update s.handles i (some c'.handle) j = some d.handle at hhandle_j
  change Function.update s.disks c'.handle.site (some c'.disk) d.handle.site = some d.disk at hdisk_j
  change s.registry d.handle.site = some j at hregistry_j
  by_cases hij : j = i
  · subst hij
    rw [Function.update_self, Option.some.injEq] at hhandle_j
    rw [← hhandle_j, Function.update_self, Option.some.injEq] at hdisk_j
    exact hlevel.of_eq (by rw [hdisk_j]) (by rw [hhandle_j]) (by rw [hhandle_j])
  · rw [Function.update_of_ne hij] at hhandle_j
    have hne : d.handle.site ≠ c'.handle.site := by
      intro heq
      rw [heq, hsite, hregistry] at hregistry_j
      exact hij (Option.some.inj hregistry_j).symm
    rw [Function.update_of_ne hne] at hdisk_j
    obtain ⟨hserves_j, hcopy_j⟩ := served_iff.mpr ⟨hhandle_j, hdisk_j, hregistry_j⟩
    exact hl j d hserves_j hcopy_j

/-- Handles whose copies stay as they were stay level. -/
theorem Level.frame {s s' : Cluster} (hl : s.Level) (hworld : s'.world = s.world)
    (hback : ∀ i c, s'.serves i = true → s'.copy i = some c →
      s.serves i = true ∧ s.copy i = some c ∨ c.Level s.world) : s'.Level := by
  intro i c hserves hc
  rw [hworld]
  rcases hback i c hserves hc with ⟨hserves', hc'⟩ | hlevel
  · exact hl i c hserves' hc'
  · exact hlevel

theorem level_created (m : Manifest) : (created m).Level := by
  intro i c hserves hc
  obtain ⟨hhandle, -⟩ := served_iff.mp ⟨hserves, hc⟩
  cases hhandle

section Step

variable [Text.CharTables] {cfg : Config} {s : Cluster}

/-- The local part of the task fails after it has written refs. -/
def tearsTask (task : Task) (fault : Option CommitFault) (c : Copy) : Bool :=
  match task.phase with
  | .committed a σ m _ =>
    match task.job with
    | .batch reqs =>
      let members := accepted reqs (verifyBatch a.basis reqs).1
      c.tearsCommit (members.map fun p => p.1.txn) m σ.lastSeq fault
    | job => c.tearsOne job m σ.firstSeq fault
  | _ => false

/-- No sync and no local part of a publish fails after it has written refs. -/
def whole (s : Cluster) : Deed → Bool
  | .sync i fault =>
    (s.copy i).all fun c => s.world.current.all fun p => !c.tears p.1 fault
  | .settle t fault =>
    (s.world.tasks t).all fun task =>
      ((s.owner t).bind s.copy).all fun c => !tearsTask task fault c
  | _ => true

/-- What the copies are level with does not move when others commit. -/
theorem Level.grows (h : Ok cfg s) (hl : s.Level) {w : World} (hgrows : s.world.Grows w) {i : ℕ}
    {c : Copy} (hserves : s.serves i = true) (hc : s.copy i = some c) : c.Level w := by
  obtain ⟨hrefs, happlied⟩ := hl i c hserves hc
  obtain ⟨g, hg, hm, -⟩ := (h.copyOk hserves hc).held
  refine ⟨hrefs.trans (hgrows.refsAt ?_).symm, happlied⟩
  exact Or.inr ⟨g, hg, by rw [hm]⟩

/-- Settling a committed task leaves the copy level. -/
theorem Level.settleTask (hl : s.Level) (h : Ok cfg s) {t i : ℕ} {task : Task} {c c' : Copy}
    {fault : Option CommitFault} (ht : s.world.tasks t = some task) (ho : s.owner t = some i)
    (hc : s.copy i = some c) (hserves : s.serves i = true)
    (htears : tearsTask task fault c = false) (hsettle : s.settleTask task fault c = some c') :
    c'.Level s.world := by
  have hw := h.world.sound
  have hok := h.copyOk hserves hc
  have hlevel := hl i c hserves hc
  cases hphase : task.phase with
  | committed a σ m v =>
    obtain ⟨hs, hcontrol⟩ := h.settles ht hphase ho hc hok
    simp only [tearsTask, hphase] at htears
    simp only [Cluster.settleTask, hphase] at hsettle
    cases hjob : task.job with
    | batch reqs =>
      simp only [hjob, Option.some.injEq] at hsettle htears
      rw [← hsettle]
      exact Copy.settleBatch_level hw hok hlevel hs hjob htears
    | _ =>
      simp only [hjob, Option.some.injEq] at hsettle htears
      rw [← hsettle, ← hjob]
      exact Copy.settleOne_level hw hok hlevel hs (by simp [hjob, Job.isBatch]) hcontrol
        (by simpa [hjob] using htears)
  | _ => simp [Cluster.settleTask, hphase] at hsettle

/-- Deeds keep the copies level if they are sound and do not fail halfway through the refs. -/
theorem Level.step (h : Ok cfg s) (hl : s.Level) {d : Deed} {s' : Cluster}
    (hsound : s.sound d = true) (hwhole : s.whole d = true) (hstep : step cfg s d = some s') :
    s'.Level := by
  simp only [sound, Bool.and_eq_true] at hsound
  obtain ⟨hserves, hsound⟩ := hsound
  have hw := h.world.sound
  cases d with
  | store a =>
    obtain ⟨w, -, hw', rfl⟩ := step_store hstep
    exact fun i c hi hc => Level.grows h hl (step_grows h.world.inv hw') hi hc
  | start i t job =>
    obtain ⟨handle, w, -, hw', rfl⟩ := step_start hstep
    exact fun i c hi hc => Level.grows h hl (step_grows h.world.inv hw') hi hc
  | pin t =>
    obtain ⟨_, _, _, -, -, -, -, rfl⟩ := step_pin hstep
    exact hl
  | capture t policy writer startedAt lastEntryTime =>
    obtain ⟨_, _, _, _, w, -, -, -, -, -, hw', rfl⟩ := step_capture hstep
    exact fun i c hi hc => Level.grows h hl (step_grows h.world.inv hw') hi hc
  | settle t fault =>
    obtain ⟨task, i, c, c', ht, ho, hc, -, hsettle, rfl⟩ := step_settle hstep
    have hserving : s.serves i = true := by simpa [worksOn, ho] using hserves
    obtain ⟨-, hkeeps⟩ := h.settleTask ht ho hc hserving hsound hsettle
    have htears : tearsTask task fault c = false := by
      simpa [whole, ht, ho, hc] using hwhole
    exact hl.setCopy hserving hc hkeeps.site (hl.settleTask h ht ho hc hserving htears hsettle)
  | finish t clock =>
    obtain ⟨task, i, handle, w, -, -, hhandle, -, hw', rfl⟩ := step_finish hstep
    intro j c hj hc
    obtain ⟨hhandle_j, hdisk, hregistry⟩ := served_iff.mp ⟨hj, hc⟩
    change Function.update s.handles i (some (handle.foldTask task clock)) j = some c.handle
      at hhandle_j
    change s.registry c.handle.site = some j at hregistry
    rw [Function.update_apply, foldTask_eq] at hhandle_j
    split_ifs at hhandle_j with heq
    · -- Only the handle's forge state changes.
      subst heq
      have hsame := Option.some.inj hhandle_j
      rw [← hsame] at hdisk hregistry
      have hserved : s.serves j = true ∧ s.copy j = some ⟨c.disk, handle⟩ :=
        served_iff.mpr ⟨hhandle, hdisk, hregistry⟩
      have hlevel := Level.grows h hl (step_grows h.world.inv hw') hserved.1 hserved.2
      exact hlevel.of_eq rfl (by rw [← hsame]) (by rw [← hsame])
    · have hserved := served_iff.mpr ⟨hhandle_j, hdisk, hregistry⟩
      exact Level.grows h hl (step_grows h.world.inv hw') hserved.1 hserved.2
  | sync i fault =>
    obtain ⟨c, m, v, hc, hcur, rfl⟩ := step_sync hstep
    have hserving : s.serves i = true := by simpa [worksOn] using hserves
    have hok := h.copyOk hserving hc
    obtain ⟨-, hkeeps, -⟩ := Copy.sync_spec hw hok hcur fault
    have htears : c.tears m fault = false := by simpa [whole, hc, hcur] using hwhole
    exact hl.setCopy hserving hc hkeeps.site
      (Copy.sync_level hw hok (hl i c hserving hc) hcur htears)
  | rematerialize i fault =>
    obtain ⟨c, m, v, hc, hcur, rfl⟩ := step_rematerialize hstep
    have hserving : s.serves i = true := by simpa [worksOn] using hserves
    obtain rfl : fault = none := by simpa using hsound
    obtain ⟨hok, hkeeps, -, hman⟩ := Copy.rematerialize_spec hw (h.copyOk hserving hc) hcur
    exact hl.setCopy hserving hc hkeeps.site (hok.level hw hcur hman)
  | openRepo site fault =>
    obtain ⟨m, v, hclosed, hcur, hopened⟩ := step_openRepo hstep
    obtain ⟨hok, -, hsite, hman⟩ := Copy.opened_spec hw (h.diskOk hclosed) hcur site fault
    rcases hopened with ⟨hdone, rfl⟩ | ⟨-, rfl⟩
    · refine hl.frame rfl fun j c hj hc => ?_
      obtain ⟨hhandle, hdisk, hregistry⟩ := served_iff.mp ⟨hj, hc⟩
      set r := (Copy.opened site ((s.disks site).getD .init) (s.world.readLog m) m v fault).1
      change Function.update s.handles s.nextHandle (some r.handle) j = some c.handle at hhandle
      change Function.update s.disks r.handle.site (some r.disk) c.handle.site = some c.disk
        at hdisk
      change Function.update s.registry site (some s.nextHandle) c.handle.site = some j at hregistry
      by_cases hnew : j = s.nextHandle
      · right
        rw [hnew, Function.update_self, Option.some.injEq] at hhandle
        rw [← hhandle, Function.update_self, Option.some.injEq] at hdisk
        exact ((hok hdone).level hw hcur hman).of_eq (by rw [hdisk]) (by rw [hhandle])
          (by rw [hhandle])
      · left
        rw [Function.update_of_ne hnew] at hhandle
        rw [Function.update_apply] at hregistry
        split_ifs at hregistry with heq
        · exact absurd (Option.some.inj hregistry).symm hnew
        · rw [Function.update_of_ne (by rw [hsite]; exact heq)] at hdisk
          exact served_iff.mpr ⟨hhandle, hdisk, hregistry⟩
    · refine hl.frame rfl fun j c hj hc => Or.inl ⟨hj, ?_⟩
      obtain ⟨hhandle, hdisk, hregistry⟩ := served_iff.mp ⟨hj, hc⟩
      have hne : c.handle.site ≠ site := by
        rintro heq
        change s.registry c.handle.site = some j at hregistry
        rw [heq, hclosed] at hregistry
        cases hregistry
      exact copy_eq_some.mpr ⟨hhandle, (Function.update_of_ne hne ..).symm.trans hdisk⟩
  | evict site =>
    obtain rfl := step_evict hstep
    refine hl.frame rfl fun j c hj hc => Or.inl ?_
    obtain ⟨hhandle, hdisk, hregistry⟩ := served_iff.mp ⟨hj, hc⟩
    change s.handles j = some c.handle at hhandle
    change Function.update s.registry site none c.handle.site = some j at hregistry
    change Function.update s.disks site none c.handle.site = some c.disk at hdisk
    rw [Function.update_apply] at hregistry hdisk
    split_ifs at hregistry hdisk
    exact served_iff.mpr ⟨hhandle, hdisk, hregistry⟩
  | stop site =>
    obtain rfl := step_stop hstep
    refine hl.frame rfl fun j c hj hc => Or.inl ?_
    obtain ⟨hhandle, hdisk, hregistry⟩ := served_iff.mp ⟨hj, hc⟩
    have hold : s.handles j = some c.handle := (Option.filter_eq_some_iff.mp hhandle).1
    change Function.update s.registry site none c.handle.site = some j at hregistry
    rw [Function.update_apply] at hregistry
    split_ifs at hregistry
    exact served_iff.mpr ⟨hold, hdisk, hregistry⟩
  | forgeEnsure i =>
    obtain ⟨c, c', hc, hensure, rfl⟩ := step_forgeEnsure hstep
    have hserving : s.serves i = true := by simpa [worksOn] using hserves
    rw [forgeEnsure_eq hensure]
    exact hl.setCopy hserving hc rfl ((hl i c hserving hc).of_eq rfl rfl rfl)
  | view i =>
    obtain ⟨c, m, v, hc, hcur, hdone, rfl⟩ := step_view hstep
    have hserving : s.serves i = true := by simpa [worksOn] using hserves
    obtain ⟨hok, hkeeps, hman, -⟩ := Copy.sync_spec hw (h.copyOk hserving hc) hcur none
    exact hl.setCopy hserving hc hkeeps.site (hok.level hw hcur (hman hdone))
  | draft i k createdAt firstStateAt asOf =>
    obtain ⟨_, _, _, -, -, -, -, rfl⟩ := step_draft hstep
    exact hl
  | rewrite i job policy writer now reply =>
    obtain ⟨_, _, w, _, -, -, -, hw', -, rfl | ⟨-, -, rfl⟩⟩ := step_rewrite hstep
    · exact fun i c hi hc => Level.grows h hl (step_grows h.world.inv hw') hi hc
    · exact fun i c hi hc => Level.grows h hl (step_grows h.world.inv hw') hi hc
  | adopt k saves =>
    obtain ⟨p, c, hp, hpk, hc, rfl⟩ := step_adopt hstep
    have hserving : s.serves p.handle = true := by simpa [worksOn, hpk] using hserves
    obtain ⟨hgen, -, hbound⟩ := h.adoptions p hp
    have hhead := hbound c.handle (copy_eq_some.mp hc).1
    have hsave : saves = true ∨ c.disk.saved.appliedSeq ≤ p.manifest.headSeq := by
      simpa [hpk, savedUpTo, hc] using hsound
    have hok := h.copyOk hserving hc
    obtain ⟨-, hkeeps⟩ := Copy.adoptWrite_spec hw hok hgen hhead saves hsave
    exact hl.setCopy hserving hc hkeeps.site
      (Copy.adoptWrite_level hw hok (hl p.handle c hserving hc) hgen hhead saves)

/-- Every step of the run is sound, and none fails halfway through the refs. -/
def Whole (cfg : Config) (s : Cluster) (deeds : List Deed) : Prop :=
  Runs.AllSteps (step cfg) (fun s d => s.sound d = true ∧ s.whole d = true) s deeds

theorem level_run {access : Option RepoAccess} {now : Timestamp} {writer : String}
    {deeds : List Deed} (hwhole : Whole cfg (created (createdManifest access now writer)) deeds)
    (hrun : Runs.run (Cluster.step cfg) (created (createdManifest access now writer)) deeds =
      some s) : Ok cfg s ∧ s.Level :=
  Runs.invariant (I := fun s => Ok cfg s ∧ s.Level)
    (fun _ _ _ h hok hstep => ⟨h.1.step hok.1 hstep, h.2.step h.1 hok.1 hok.2 hstep⟩) hrun hwhole
    ⟨ok_created cfg access now writer, level_created _⟩

/-- Whoever reads a fetch view gets the refs of the log up to the head of the manifest in it. -/
theorem fetch_view_coherent {access : Option RepoAccess} {now : Timestamp} {writer : String}
    {deeds : List Deed} (hwhole : Whole cfg (created (createdManifest access now writer)) deeds)
    (hrun : Runs.run (Cluster.step cfg) (created (createdManifest access now writer)) deeds =
      some s) {i : ℕ} {m : Manifest} {refs : RefState} (hserves : s.serves i = true)
    (hview : s.fetchView i = some (m, refs)) :
    refs = refsAt (committedEntries s.world.gens) m.headSeq := by
  obtain ⟨c, hc, heq⟩ := Option.map_eq_some_iff.mp hview
  cases heq
  exact ((level_run hwhole hrun).2 i c hserves hc).refs

end Step

section Runs

attribute [local instance] Text.asciiTables

instance (cfg : Config) (s : Cluster) (deeds : List Deed) : Decidable (Whole cfg s deeds) :=
  inferInstanceAs (Decidable (Runs.AllSteps ..))

/-- The second instance's sync fails before it touches its copy, and then succeeds. -/
theorem fetch_view_coherent_secondSync :
    ∃ s m refs, runNew (firstPush ++ [.sync 1 (some .early), .sync 1 none]) = some s ∧
      s.fetchView 1 = some (m, refs) ∧ m.headSeq = 1 ∧
      refs = refsAt (committedEntries s.world.gens) m.headSeq := by
  have hrun : ((runNew (firstPush ++ [.sync 1 (some .early), .sync 1 none])).bind fun s =>
      (s.fetchView 1).map fun p => (s.serves 1, p.1.headSeq)) = some (true, 1) := by decide
  obtain ⟨s, hs, hrest⟩ := Option.bind_eq_some_iff.mp hrun
  obtain ⟨⟨m, refs⟩, hview, heq⟩ := Option.map_eq_some_iff.mp hrest
  simp only [Prod.mk.injEq] at heq
  exact ⟨s, m, refs, hs, hview, heq.2, fetch_view_coherent (by decide) hs heq.1 hview⟩

/-- A sync that fails to save its state has written the refs and keeps the old manifest. -/
theorem fetch_view_torn_sync :
    ∃ s m refs, runNew (firstPush ++ [.sync 1 (some .save)]) = some s ∧ s.serves 1 = true ∧
      s.fetchView 1 = some (m, refs) ∧ m.headSeq = 0 ∧
      refs ≠ refsAt (committedEntries s.world.gens) m.headSeq := by
  have hrun : ((runNew (firstPush ++ [.sync 1 (some .save)])).bind fun s =>
      (s.fetchView 1).map fun p => (s.serves 1, p.1.headSeq,
        decide (p.2 = refsAt (committedEntries s.world.gens) p.1.headSeq))) =
      some (true, 0, false) := by decide
  obtain ⟨s, hs, hrest⟩ := Option.bind_eq_some_iff.mp hrun
  obtain ⟨⟨m, refs⟩, hview, heq⟩ := Option.map_eq_some_iff.mp hrest
  simp only [Prod.mk.injEq, decide_eq_false_iff_not] at heq
  exact ⟨s, m, refs, hs, heq.1, hview, heq.2⟩

end Runs

end Cluster

end Walgit
