import Walgit.Cluster
import Walgit.History

/-!
# Copies and the log

How far a copy has come along the committed log. Every local step, finished or not, leaves
a copy that has applied the log up to the position it records; what it holds beyond that a
later replay writes again.
-/
namespace Walgit

open Replay (upTo after between)

/-- The refs of the log up to `n`. -/
def refsAt (log : List LogEntry) (n : ℕ) : RefState := foldRefs .fresh (upTo LogEntry.seq n log)

/-- The refs have the log applied up to `n`. -/
def RefState.Applied (log : List LogEntry) (n : ℕ) (s : RefState) : Prop :=
  Replay.Behind LogEntry.seq LogEntry.writes RefState.fresh.cells log n s.cells

theorem replay_fold (es : List LogEntry) :
    Replay.fold LogEntry.writes RefState.fresh.cells es = (foldRefs .fresh es).cells :=
  (cells_foldRefs _ _).symm

namespace RefState.Applied

variable {log : List LogEntry} {a b n : ℕ} {s s' : RefState}

theorem refsAt (log : List LogEntry) (n : ℕ) : (refsAt log n).Applied log n := by
  unfold Applied Walgit.refsAt
  rw [← replay_fold]
  exact Replay.behind_fold log n

theorem mono (h : s.Applied log b) (hsorted : Replay.Sorted LogEntry.seq log) (hab : a ≤ b) :
    s.Applied log a := Replay.Behind.mono h hsorted hab

theorem append (h : s.Applied log n) {new : List LogEntry} (hnew : ∀ e ∈ new, n < e.seq) :
    s.Applied (log ++ new) n := Replay.Behind.append h hnew

theorem exact (h : s.Applied log n) (hall : ∀ e ∈ log, e.seq ≤ n) : s = foldRefs .fresh log :=
  cells_injective ((Replay.Behind.exact h hall).trans (replay_fold log))

theorem replay (h : s.Applied log a) (hsorted : Replay.Sorted LogEntry.seq log) (hab : a ≤ b) :
    (foldRefs s (between LogEntry.seq a b log)).Applied log b := by
  unfold Applied
  rw [cells_foldRefs]
  exact Replay.Behind.replay h hsorted hab

/-- Entries without a transaction are applied by counting them. -/
theorem skip (h : s.Applied log a) (hsorted : Replay.Sorted LogEntry.seq log) (hab : a ≤ b)
    (hnone : ∀ e ∈ between LogEntry.seq a b log, e.txn = none) : s.Applied log b := by
  have hfold := h.replay hsorted hab
  have htxns : (between LogEntry.seq a b log).filterMap LogEntry.txn = [] :=
    List.filterMap_eq_nil_iff.mpr hnone
  rwa [foldRefs, htxns] at hfold

/-- Refs and HEAD may be at different points of what is still to be applied. -/
theorem mix (h : s.Applied log n) (h' : s'.Applied log n) :
    RefState.Applied log n { s with headTarget := s'.headTarget } := by
  intro k hk
  cases k with
  | none => exact h' none hk
  | some name => exact h (some name) hk

/-- Transactions of entries that are still to be applied may be there already. -/
theorem ahead (h : s.Applied log n) {us : List RefUpdate}
    (hus : ∀ u ∈ us, ∃ e ∈ log, n < e.seq ∧ ∃ t ∈ e.txn, u ∈ t.updates) :
    (us.foldl applyUpdate s).Applied log n := by
  refine Replay.Behind.written h fun k hk => ?_
  rw [cells_applyUpdates]
  refine Overwrite.run_untouched fun w hw => hk w ?_
  obtain ⟨u, hu, hwrite⟩ := List.mem_filterMap.mp hw
  obtain ⟨e, he, hlt, t, ht, hut⟩ := hus u hu
  refine List.mem_flatMap.mpr ⟨e, List.mem_filter.mpr ⟨he, by simpa using hlt⟩, ?_⟩
  rw [LogEntry.writes, Option.mem_def.mp ht]
  exact List.mem_filterMap.mpr ⟨u, hut, hwrite⟩

end RefState.Applied

theorem foldRefs_headTarget_ne (es : List LogEntry) : (foldRefs .fresh es).headTarget ≠ "" := by
  have hupdates : ∀ (us : List RefUpdate) (s : RefState), s.headTarget ≠ "" →
      (us.foldl RefState.applyUpdate s).headTarget ≠ "" := by
    intro us
    induction us with
    | nil => exact fun _ h => h
    | cons u us ih =>
      intro s hs
      refine ih _ ?_
      unfold RefState.applyUpdate
      split_ifs with hsym hhead
      · simpa [RefUpdate.symbolic] using hsym
      · exact hs
      · exact hs
      · exact hs
  have htxns : ∀ (ts : List RefTransaction) (s : RefState), s.headTarget ≠ "" →
      (s.applyTxns ts).headTarget ≠ "" := by
    intro ts
    induction ts with
    | nil => exact fun _ h => h
    | cons t ts ih => exact fun s hs => ih _ (hupdates t.updates s hs)
  exact htxns _ _ (by decide)

/-- A position at which a manifest's log ends. -/
def World.Boundary (w : World) (n : ℕ) : Prop := n = 0 ∨ ∃ g ∈ w.gens, g.manifest.headSeq = n

section Chars

variable [Text.CharTables]

/-- The entry's transaction is one that every copy applies alike. -/
def LogEntry.Portable (e : LogEntry) : Prop :=
  e.refTxn = e.txn ∧ ∀ t ∈ e.txn, t.valid ∧ t.plainHead = false

/-- A store from which copies are made: every entry portable, every checkpoint the fold of the
log up to it. -/
structure World.Sound (cfg : Config) (w : World) : Prop where
  inv : Inv cfg w
  portable : ∀ e ∈ committedEntries w.gens, e.Portable
  checkpoints : ∀ g ∈ w.gens, ∀ cp, g.manifest.checkpoint = some cp →
    cp.refs = refsAt (committedEntries w.gens) cp.seq

end Chars

/-- The copy has the log applied up to the position its handle records. -/
structure Copy.Reaches (w : World) (c : Copy) : Prop where
  applied : c.disk.refs.Applied (committedEntries w.gens) c.handle.state.appliedSeq
  boundary : w.Boundary c.handle.state.appliedSeq

/-- A copy that applied more of the log; only a finished call writes the state file. -/
structure Copy.Advances (c c' : Copy) : Prop where
  site : c'.handle.site = c.handle.site
  manifest : c'.handle.manifest = c.handle.manifest
  version : c'.handle.version = c.handle.version
  applied : c.handle.state.appliedSeq ≤ c'.handle.state.appliedSeq
  saved : c'.disk.saved = c.disk.saved ∨ c'.disk.saved = c'.handle.state

theorem Copy.Advances.refl (c : Copy) : c.Advances c := ⟨rfl, rfl, rfl, le_rfl, Or.inl rfl⟩

theorem Copy.Advances.trans {c c' c'' : Copy} (h : c.Advances c') (h' : c'.Advances c'')
    (hsaved : c'.disk.saved = c.disk.saved) : c.Advances c'' :=
  ⟨h'.site.trans h.site, h'.manifest.trans h.manifest, h'.version.trans h.version,
    h.applied.trans h'.applied, hsaved ▸ h'.saved⟩

namespace Copy

variable {cfg : Config} {w : World} {c : Copy} {g : Generation}

/-- A copy at the head of a manifest records that. -/
theorem record_spec {c' : Copy} (hg : g ∈ w.gens) (hadv : c.Advances c')
    (hsaved : c'.disk.saved = c.disk.saved) (hle : c.handle.state.appliedSeq ≤ g.manifest.headSeq)
    (hat : c'.disk.refs.Applied (committedEntries w.gens) g.manifest.headSeq) (revision : ℕ)
    (saves : Bool) :
    (c'.record ⟨g.manifest.headSeq, revision⟩ saves).Reaches w ∧
      c.Advances (c'.record ⟨g.manifest.headSeq, revision⟩ saves) := by
  refine ⟨⟨hat, Or.inr ⟨g, hg, rfl⟩⟩, ⟨hadv.site, hadv.manifest, hadv.version, hle, ?_⟩⟩
  cases saves with
  | true => exact Or.inr rfl
  | false => exact Or.inl hsaved

variable [Text.CharTables]

/-- A checkpoint is at the end of some manifest's log, at or below the head. -/
theorem boundary_checkpoint (hw : w.Sound cfg) (hg : g ∈ w.gens) :
    w.Boundary g.manifest.checkpointSeq ∧ g.manifest.checkpointSeq ≤ g.manifest.headSeq := by
  obtain ⟨gens, hsuffix⟩ := exists_suffix hg
  have hlog := (hw.inv.chain.suffix hsuffix).logSpec
  refine ⟨?_, hlog.checkpoint_le_head⟩
  rcases hlog.checkpoint with h0 | ⟨g', hg', hhead⟩
  · exact Or.inl h0
  · exact Or.inr ⟨g', hsuffix.subset hg', hhead⟩

/-- The checkpoint brings an older copy to its position, or fails on the way. -/
theorem loadCheckpoint_spec (hw : w.Sound cfg) (hg : g ∈ w.gens) (hc : c.Reaches w)
    (hle : c.handle.state.appliedSeq ≤ g.manifest.headSeq) (fault : Option Fault) :
    let r := c.loadCheckpoint g.manifest fault
    r.1.Reaches w ∧ c.Advances r.1 ∧ r.1.disk.saved = c.disk.saved ∧
      r.1.handle.state.appliedSeq ≤ g.manifest.headSeq ∧
      (r.2 = true → g.manifest.checkpointSeq ≤ r.1.handle.state.appliedSeq) ∧
      (fault = none → r.2 = true) := by
  obtain ⟨hboundary, hhead⟩ := boundary_checkpoint hw hg
  have hsorted := hw.inv.chain.sorted
  intro r
  simp only [r, loadCheckpoint]
  cases hcp : g.manifest.checkpoint with
  | none =>
    have hzero : g.manifest.checkpointSeq = 0 := by simp [Manifest.checkpointSeq, hcp]
    exact ⟨hc, .refl c, rfl, hle, fun _ => by omega, fun _ => rfl⟩
  | some cp =>
    have hseq : g.manifest.checkpointSeq = cp.seq := by simp [Manifest.checkpointSeq, hcp]
    rw [hseq] at hboundary hhead ⊢
    simp only
    split_ifs with hnew
    · exact ⟨hc, .refl c, rfl, hle, fun _ => hnew, fun _ => rfl⟩
    · have hsnap : c.disk.refs.loadRefSnapshot cp.refs =
          refsAt (committedEntries w.gens) cp.seq := by
        rw [hw.checkpoints g hg cp hcp]
        simp only [RefState.loadRefSnapshot, refsAt, foldRefs_headTarget_ne, if_false]
      have hat := RefState.Applied.refsAt (committedEntries w.gens) cp.seq
      have hback := hat.mono hsorted (Nat.le_of_lt (not_le.mp hnew))
      split
      · -- The refs are written; HEAD may not be.
        rename_i head
        refine ⟨⟨?_, hc.boundary⟩, ⟨rfl, rfl, rfl, le_rfl, Or.inl rfl⟩, rfl, hle, by simp,
          by simp⟩
        rw [hsnap]
        cases head with
        | true => exact hback
        | false => exact hback.mix hc.applied
      · rw [hsnap]
        exact ⟨⟨hat, hboundary⟩, ⟨rfl, rfl, rfl, Nat.le_of_lt (not_le.mp hnew), Or.inl rfl⟩, rfl,
          hhead, fun _ => le_rfl, fun _ => rfl⟩

/-- A read of a log that the manifest still has is replayed as the log means it. -/
theorem replayLog_eq (hw : w.Sound cfg) (hg : g ∈ w.gens) {after : ℕ}
    (hcp : g.manifest.checkpointSeq ≤ after) (fault : Option Fault) :
    let entries := between LogEntry.seq after g.manifest.headSeq (committedEntries w.gens)
    let refs := foldRefs c.disk.refs entries
    c.replayLog (w.readLog g.manifest) after g.manifest.headSeq fault =
      if fault = some .fetch then (c, false)
      else
        match fault with
        | some (.replay head) => (c.writeRefs refs head, false)
        | _ =>
          ((c.setRefs refs).setForge (c.handle.forge.map fun s => s.foldEntries after entries),
            true) := by
  intro entries refs
  have hread : w.readLog g.manifest after g.manifest.headSeq = some entries :=
    hw.inv.readLog hg hcp le_rfl
  have hportable : ∀ e ∈ entries, e.Portable :=
    fun e he => hw.portable e (List.mem_filter.mp he).1
  have htxns : entries.filterMap LogEntry.refTxn = entries.filterMap LogEntry.txn :=
    List.filterMap_congr fun e he => (hportable e he).1
  have hoffline : c.disk.refs.applyRefTxnsOffline (entries.filterMap LogEntry.refTxn) =
      .ok refs := by
    rw [htxns]
    refine RefState.applyRefTxnsOffline_eq _ fun t ht => ?_
    obtain ⟨e, he, het⟩ := List.mem_filterMap.mp ht
    exact ((hportable e he).2 t het).1
  cases fault with
  | none => simp only [replayLog, hread, hoffline]
  | some f => cases f <;> simp only [replayLog, hread, hoffline]

/-- The rest of the log brings a copy to the head, or fails on the way. -/
theorem replayLog_spec (hw : w.Sound cfg) (hg : g ∈ w.gens) (hc : c.Reaches w)
    (hcp : g.manifest.checkpointSeq ≤ c.handle.state.appliedSeq)
    (hle : c.handle.state.appliedSeq ≤ g.manifest.headSeq) (fault : Option Fault) :
    let r := c.replayLog (w.readLog g.manifest) c.handle.state.appliedSeq g.manifest.headSeq fault
    r.1.Reaches w ∧ c.Advances r.1 ∧ r.1.disk.saved = c.disk.saved ∧
      r.1.handle.state = c.handle.state ∧
      (r.2 = true → r.1.disk.refs.Applied (committedEntries w.gens) g.manifest.headSeq) ∧
      (fault = none → r.2 = true) := by
  have hsorted := hw.inv.chain.sorted
  have hat := hc.applied.replay hsorted hle
  have hback := hat.mono hsorted hle
  intro r
  simp only [r, replayLog_eq hw hg hcp fault]
  split_ifs with hfetch
  · exact ⟨hc, .refl c, rfl, rfl, by simp, fun h => by simp [h] at hfetch⟩
  · split
    · rename_i head
      refine ⟨⟨?_, hc.boundary⟩, ⟨rfl, rfl, rfl, le_rfl, Or.inl rfl⟩, rfl, rfl, by simp, by simp⟩
      cases head with
      | true => exact hback
      | false => exact hback.mix hc.applied
    · exact ⟨⟨hback, hc.boundary⟩, ⟨rfl, rfl, rfl, le_rfl, Or.inl rfl⟩, rfl, rfl, fun _ => hat,
        fun _ => rfl⟩

/-- `apply_delta` leaves a copy that has applied at least what it had, and everything up to
the head if it succeeds. -/
theorem applyDelta_spec (hw : w.Sound cfg) (hg : g ∈ w.gens) (hc : c.Reaches w)
    (hle : c.handle.state.appliedSeq ≤ g.manifest.headSeq) (fault : Option Fault) :
    let r := c.applyDelta (w.readLog g.manifest) g.manifest fault
    r.1.Reaches w ∧ c.Advances r.1 ∧
      (r.2 = true → r.1.handle.state = ⟨g.manifest.headSeq, g.manifest.revision⟩ ∧
        r.1.disk.saved = r.1.handle.state) ∧
      (fault = none → r.2 = true) := by
  obtain ⟨hreach, hadv, hsaved, hhead, hcp, hok⟩ := loadCheckpoint_spec hw hg hc hle fault
  -- The end of a call that applied everything.
  have finish : ∀ c' : Copy, c.Advances c' → c'.disk.saved = c.disk.saved →
      c'.disk.refs.Applied (committedEntries w.gens) g.manifest.headSeq →
      let r := (c'.record ⟨g.manifest.headSeq, g.manifest.revision⟩ (fault ≠ some .save),
        (fault ≠ some .save && fault ≠ some .refresh : Bool))
      r.1.Reaches w ∧ c.Advances r.1 ∧
        (r.2 = true → r.1.handle.state = ⟨g.manifest.headSeq, g.manifest.revision⟩ ∧
          r.1.disk.saved = r.1.handle.state) ∧
        (fault = none → r.2 = true) := by
    intro c' hadv' hsaved' hat r
    obtain ⟨hrecorded, hrecords⟩ := record_spec hg hadv' hsaved' hle hat g.manifest.revision
      (fault ≠ some .save)
    refine ⟨hrecorded, hrecords, fun h => ⟨rfl, ?_⟩, ?_⟩
    · simp only [r, Bool.and_eq_true] at h
      simp only [r, record, h.1, if_true]
    · rintro rfl
      rfl
  intro r
  simp only [r, applyDelta]
  split_ifs with hearly hload hafter hreplay
  · exact ⟨hc, .refl c, by simp, fun h => by simp [h] at hearly⟩
  · refine ⟨hreach, hadv, fun h => ?_, hok⟩
    rw [h] at hload
    cases hload
  all_goals
    have hdone : (c.loadCheckpoint g.manifest fault).2 = true := by simpa using hload
  · obtain ⟨hreach', hadv', hsaved', -, -, hok'⟩ :=
      replayLog_spec hw hg hreach (hcp hdone) hhead fault
    refine ⟨hreach', hadv.trans hadv' hsaved, fun h => ?_, hok'⟩
    rw [h] at hreplay
    cases hreplay
  · obtain ⟨-, hadv', hsaved', -, hat, -⟩ :=
      replayLog_spec hw hg hreach (hcp hdone) hhead fault
    exact finish _ (hadv.trans hadv' hsaved) (hsaved'.trans hsaved)
      (hat (by simpa using hreplay))
  · have heq := le_antisymm hhead (not_lt.mp hafter)
    exact finish _ hadv hsaved (heq ▸ hreach.applied)

/-- A boundary below the end of a committed segment lies below its start. -/
theorem boundary_lt (hw : w.Sound cfg) {n : ℕ} (hn : w.Boundary n) {o : Origin}
    (ho : Committed w o) (hlast : n < o.slot.lastSeq) : n < o.slot.firstSeq := by
  obtain ⟨g, hg, ho⟩ := ho
  obtain ⟨current, gens, hgens, -⟩ := hw.inv.current
  have hspec := (hgens ▸ hw.inv.chain).logSpec
  have hseg := (hw.inv.chain.ref_mem hg ho).2
  rw [hgens] at hseg
  rcases hn with h0 | ⟨g', hg', hhead⟩
  · rw [h0]
    exact (hspec.proper _ hseg).1
  · rw [← hhead] at hlast ⊢
    rcases hspec.boundary g' (hgens ▸ hg') _ hseg with hle | hlt
    · exact absurd hlast (not_lt.mpr hle)
    · exact hlt

/-- The transactions of a committed batch, against the entries it wrote. -/
theorem batch_txns (hw : w.Sound cfg) {o : Origin} (ho : Committed w o)
    {reqs : List PublishRequest} (hjob : o.job = .batch reqs) :
    let ts := (accepted reqs (verifyBatch o.attempt.basis reqs).1).map fun p => p.1.txn
    (∀ s, foldRefs s o.slot.bytes = s.applyTxns ts) ∧
      (∀ t ∈ ts, t.plainHead = false) ∧
      ∀ t ∈ ts, ∀ u ∈ t.updates, ∃ e ∈ o.slot.bytes, ∃ t' ∈ e.txn, u ∈ t'.updates := by
  intro ts
  obtain ⟨g, hg, ho⟩ := ho
  obtain ⟨clock, es, hes, -, hbytes⟩ := (hw.inv.chain.ref_mem hg ho).1
  rw [hjob] at hes
  cases hes
  have hentry : ∀ t ∈ ts, ∀ u ∈ t.updates, ∃ e ∈ o.slot.bytes, e.txn = some t := by
    intro t ht u hu
    obtain ⟨m, hm, rfl⟩ := List.mem_map.mp ht
    obtain ⟨k, hk⟩ := List.mem_iff_getElem?.mp hm
    have honly : m.1.forgeOnly = false := by
      rw [PublishRequest.forgeOnly, List.isEmpty_eq_false_iff_exists_mem.mpr ⟨u, hu⟩,
        Bool.and_false]
    have hbuilt := buildEntries_getElem? o.attempt.writer o.attempt.startedAt clock
      o.slot.firstSeq (accepted reqs (verifyBatch o.attempt.basis reqs).1) k
    rw [hk, Option.map_some] at hbuilt
    obtain ⟨e, he, heq⟩ := withNonce_getElem? o.slot.nonce hbuilt
    refine ⟨e, hbytes ▸ List.mem_of_getElem? he, ?_⟩
    rw [heq]
    simp [buildEntry, honly]
  refine ⟨fun s => ?_, fun t ht => ?_, fun t ht u hu => ?_⟩
  · rw [hbytes, foldRefs_withNonce, foldRefs_buildEntries]
  · by_contra hhead
    have hany : t.plainHead = true := by simpa using hhead
    obtain ⟨u, hu, -⟩ := List.any_eq_true.mp hany
    obtain ⟨e, he, het⟩ := hentry t ht u hu
    have hportable := (hw.portable e (mem_committedEntries hg ho he)).2 t het
    exact hhead hportable.2
  · obtain ⟨e, he, het⟩ := hentry t ht u hu
    exact ⟨e, he, t, het, hu⟩

/-- Applying a committed batch with git brings a copy at its basis to its end, or fails on
the way. -/
theorem applyBatch_spec (hw : w.Sound cfg) (hc : c.Reaches w) {o : Origin} (ho : Committed w o)
    {reqs : List PublishRequest} (hjob : o.job = .batch reqs)
    (hbasis : o.attempt.basis.manifest.headSeq ≤ c.handle.state.appliedSeq)
    (hlast : c.handle.state.appliedSeq < o.slot.lastSeq) (fault : Option CommitFault) :
    let r := c.applyBatch
      ((accepted reqs (verifyBatch o.attempt.basis reqs).1).map fun p => p.1.txn) fault
    r.1.handle = c.handle ∧ r.1.disk.saved = c.disk.saved ∧
      r.1.disk.refs.Applied (committedEntries w.gens) c.handle.state.appliedSeq ∧
      (r.2 = true → r.1.disk.refs.Applied (committedEntries w.gens) o.slot.lastSeq) := by
  obtain ⟨hfold, hplain, hupdates⟩ := batch_txns hw ho hjob
  set ts := (accepted reqs (verifyBatch o.attempt.basis reqs).1).map fun p => p.1.txn with hts
  set log := committedEntries w.gens with hlog
  have hfirst := boundary_lt hw hc.boundary ho hlast
  obtain ⟨g, hg, ho⟩ := ho
  have hwrote := (hw.inv.chain.ref_mem hg ho).1
  have hspan := hw.inv.chain.span hg ho hbasis hfirst
  have hahead : ∀ us : List RefUpdate, (∀ u ∈ us, ∃ t ∈ ts, u ∈ t.updates) →
      ∀ s : RefState, s.Applied log c.handle.state.appliedSeq →
      (us.foldl RefState.applyUpdate s).Applied log c.handle.state.appliedSeq := by
    intro us hus s hs
    refine hs.ahead fun u hu => ?_
    obtain ⟨t, ht, hut⟩ := hus u hu
    obtain ⟨e, he, hrest⟩ := hupdates t ht u hut
    exact ⟨e, mem_committedEntries hg ho he, hfirst.trans_le (hwrote.mem_seq he).1, hrest⟩
  have hbegun : ∀ done : List RefTransaction, (∀ t ∈ done, t ∈ ts) →
      (c.disk.refs.applyTxns done).Applied log c.handle.state.appliedSeq := by
    intro done hdone
    rw [RefState.applyTxns_eq]
    refine hahead _ (fun u hu => ?_) _ hc.applied
    obtain ⟨t, ht, hut⟩ := List.mem_flatMap.mp hu
    exact ⟨t, hdone t ht, hut⟩
  have hwhole : (c.disk.refs.applyTxns ts).Applied log o.slot.lastSeq := by
    rw [← hfold, ← hspan]
    exact hc.applied.replay hw.inv.chain.sorted hlast.le
  intro r
  simp only [r, applyBatch]
  split
  · rename_i k plain
    have htaken : ∀ t ∈ ts.take k, t.plainHead = false :=
      fun t ht => hplain t (List.mem_of_mem_take ht)
    obtain ⟨done, rest, hsplit, hdone, hall⟩ := c.disk.refs.applyRefTxns_eq htaken
    have hsub : ∀ t ∈ done, t ∈ ts := fun t ht =>
      List.mem_of_mem_take (hsplit ▸ List.mem_append_left rest ht)
    split_ifs with hok
    · exact ⟨rfl, rfl, hdone ▸ hbegun done hsub, by simp⟩
    · split
      · rename_i hnone
        have htake : ts.take k = ts := List.take_of_length_le (List.getElem?_eq_none_iff.mp hnone)
        refine ⟨rfl, rfl, hdone ▸ hbegun done hsub, fun _ => ?_⟩
        rw [hall (by simpa using hok), List.append_nil, htake] at hsplit
        rw [setRefs, hdone, ← hsplit]
        exact hwhole
      · rename_i t ht
        have hmem := List.mem_of_getElem? ht
        split_ifs
        · refine ⟨rfl, rfl, ?_, by simp⟩
          rw [setRefs, hdone,
            RefState.foldl_updateRef_eq _ (RefTransaction.plain_updates (hplain t hmem))]
          exact hahead _ (fun u hu => ⟨t, hmem, (List.mem_filter.mp hu).1⟩) _ (hbegun done hsub)
        · exact ⟨rfl, rfl, hdone ▸ hbegun done hsub, by simp⟩
  · obtain ⟨done, rest, hsplit, hdone, hall⟩ := c.disk.refs.applyRefTxns_eq hplain
    have hsub : ∀ t ∈ done, t ∈ ts := fun t ht => hsplit ▸ List.mem_append_left rest ht
    refine ⟨rfl, rfl, hdone ▸ hbegun done hsub, fun hok => ?_⟩
    rw [hall hok, List.append_nil] at hsplit
    rw [setRefs, hdone, ← hsplit]
    exact hwhole

end Copy

end Walgit
