import Mathlib.Data.List.TakeWhile
import Walgit.FetchViews

/-!
# Historical refs

`refs_at_seq` and `refs_as_of` replay the log in memory over the newest checkpoint at or
before a cut. They take their manifests from the handle, which another call may replace
between two reads.
-/
namespace Walgit

open Replay (upTo between)

def Cut.toSeq : Cut → Option ℕ
  | .time _ => none
  | .seq limit => some limit

/-- `checkpoint_times`, as far as a cut reads them: `learned` is the time in the checkpoint's
object, if the handle has read it. -/
def CheckpointRef.time (cp : CheckpointRef) (learned : Option (Option Timestamp)) :
    Option Timestamp :=
  if cp.createdAt.isSome then cp.asOf.or cp.createdAt
  else
    match learned with
    | some createdAt => createdAt
    | none => cp.asOf

/-- The checkpoint is at or before the cut. Its time is that of the checkpoint in the manifest
the handle holds by then. -/
def Cut.usable (cut : Cut) (cp : CheckpointRef) (held : Manifest)
    (learned : Option (Option Timestamp)) : Bool :=
  match cut with
  | .seq limit => cp.seq ≤ limit
  | .time limit =>
    (held.checkpoint.bind fun cp => cp.time learned).any fun t => t.toSystem ≤ limit

/-- `RefSnapshot::default`. -/
def RefState.unset : RefState := ⟨.empty, ""⟩

/-- Where a replay starts: from nothing, unless the checkpoint is usable. -/
def Manifest.replayStart (m held : Manifest) (learned : Option (Option Timestamp)) (cut : Cut) :
    RefState × ℕ :=
  match m.checkpoint with
  | some cp => if cut.usable cp held learned then (cp.refs, cp.seq) else (.unset, 0)
  | none => (.unset, 0)

namespace World

variable (w : World)

/-- The entries in `[from_seq, to_seq]`, or up to the head. -/
def readLogManifest (m : Manifest) (fromSeq : ℕ) (toSeq : Option ℕ) : Option (List LogEntry) :=
  let last := min (toSeq.getD m.headSeq) m.headSeq
  if last < fromSeq then some [] else w.readLog m (fromSeq - 1) last

def replayRefs (m held : Manifest) (learned : Option (Option Timestamp)) (cut : Cut) :
    Except WalError (RefState × ℕ) :=
  let start := m.replayStart held learned cut
  match w.readLogManifest m (start.2 + 1) cut.toSeq with
  | some entries => .ok (start.1.replayRefs cut start.2 entries)
  | none => .error (.store "not found")

/-- `refs_as_of`, with the manifest the handle holds at first and the one it holds when it is
asked for the checkpoint's times. -/
def refsAsOf (m held : Manifest) (learned : Option (Option Timestamp)) (limit : ℕ) :
    Except WalError (RefState × ℕ) :=
  w.replayRefs m held learned (.time limit)

/-- `refs_at_seq`: the checks read one manifest of the handle, the replay another. -/
def refsAtSeq (m m' : Manifest) (seq : ℕ) : Except WalError RefState :=
  if m.headSeq < seq then .error (.corrupt s!"future refs sequence {seq}")
  else
    let cpOk := m.checkpoint.any fun cp => cp.seq ≤ seq
    if !cpOk && 1 < m.minSeq && seq < m.minSeq then
      .error (.corrupt (s!"refs at seq {seq} are not replayable: log folded up to {m.minSeq} " ++
        "and no checkpoint at or before"))
    else (w.replayRefs m' m' none (.seq seq)).map Prod.fst

/-- Every committed checkpoint is the fold of the log up to it. -/
def FoldsCheckpoints : Prop :=
  ∀ g ∈ w.gens, ∀ cp ∈ g.manifest.checkpoint, cp.refs = refsAt (committedEntries w.gens) cp.seq

instance : Decidable w.FoldsCheckpoints := inferInstanceAs (Decidable (∀ _ ∈ _, _))

end World

/-- The entry writes a ref, or HEAD's target. -/
def LogEntry.Writes (e : LogEntry) (cell : Option String) : Prop := ∃ w ∈ e.writes, w.1 = cell

namespace RefState

theorem replayRefs_eq (cut : Cut) (s : RefState) (last : ℕ) (es : List LogEntry) :
    s.replayRefs cut last es =
      (foldRefs s (es.takeWhile fun e => !cut.stops e),
        ((es.takeWhile fun e => !cut.stops e).getLast?.map LogEntry.seq).getD last) := by
  have hupdates : RefState.replayUpdate = applyUpdate :=
    funext fun s => funext fun u => replayUpdate_eq s u
  induction es generalizing s last with
  | nil => rfl
  | cons e es ih =>
    rw [replayRefs]
    by_cases hstop : cut.stops e = true
    · simp [hstop]
    · have htake : (e :: es).takeWhile (fun e => !cut.stops e) =
          e :: es.takeWhile fun e => !cut.stops e := by simp [hstop]
      rw [if_neg hstop, ih, htake, foldRefs_cons, List.getLast?_cons, hupdates]
      cases (es.takeWhile fun e => !cut.stops e).getLast? <;> rfl

/-- A cut by sequence number stops at none of the entries read for it. -/
theorem replayRefs_seq (s : RefState) (last a n : ℕ) (log : List LogEntry) :
    (s.replayRefs (.seq n) last (between LogEntry.seq a n log)).1 =
      foldRefs s (between LogEntry.seq a n log) := by
  have hall : (between LogEntry.seq a n log).takeWhile (fun e => !(Cut.seq n).stops e) =
      between LogEntry.seq a n log := by
    refine List.takeWhile_eq_self_iff.mpr fun e he => ?_
    have hle := (Replay.mem_between.mp he).2.2
    simpa [Cut.stops] using hle
  rw [replayRefs_eq, hall]

theorem eq_iff {s t : RefState} : s = t ↔ s.headTarget = t.headTarget ∧ s.refs = t.refs := by
  cases s
  cases t
  simp [and_comm]

theorem refs_eq_iff {s t : RefState} :
    s.refs = t.refs ↔ ∀ name, s.cells (some name) = t.cells (some name) :=
  ⟨fun h name => congrArg (SortedMap.find? · name) h, fun h => SortedMap.ext_find? h⟩

theorem headTarget_eq_iff {s t : RefState} :
    s.headTarget = t.headTarget ↔ s.cells none = t.cells none := by
  simp [cells]

end RefState

/-- Two folds of the same entries agree on a cell where the entries write it, or where they
started alike. -/
theorem cells_foldRefs_eq_iff {s t : RefState} {es : List LogEntry} {k : Option String} :
    (foldRefs s es).cells k = (foldRefs t es).cells k ↔
      s.cells k = t.cells k ∨ ∃ e ∈ es, e.Writes k := by
  rw [cells_foldRefs, cells_foldRefs, Overwrite.run_apply_eq_iff]
  simp only [writesOf, List.mem_flatMap, LogEntry.Writes]
  constructor
  · rintro (h | ⟨w, ⟨e, he, hw⟩, hk⟩)
    · exact Or.inl h
    · exact Or.inr ⟨e, he, w, hw, hk⟩
  · rintro (h | ⟨e, he, w, hw, hk⟩)
    · exact Or.inl h
    · exact Or.inr ⟨w, ⟨e, he, hw⟩, hk⟩

/-- Replayed over nothing, entries give the refs they give over a state if they write every
ref the state has. -/
theorem refs_foldRefs_unset {s : RefState} {es : List LogEntry} :
    (foldRefs .unset es).refs = (foldRefs s es).refs ↔
      ∀ name, (s.refs.find? name).isSome → ∃ e ∈ es, e.Writes (some name) := by
  rw [RefState.refs_eq_iff]
  refine forall_congr' fun name => ?_
  have hcell : RefState.unset.cells (some name) = s.cells (some name) ↔
      ¬(s.refs.find? name).isSome := by
    cases hs : s.refs.find? name <;> simp [RefState.cells, RefState.unset, hs]
  rw [cells_foldRefs_eq_iff, hcell, ← imp_iff_not_or]

theorem headTarget_foldRefs_unset {s : RefState} (hs : s.headTarget ≠ "") {es : List LogEntry} :
    (foldRefs .unset es).headTarget = (foldRefs s es).headTarget ↔
      ∃ e ∈ es, e.Writes none := by
  have hcell : ¬RefState.unset.cells none = s.cells none := by
    simpa [RefState.cells, RefState.unset] using Ne.symm hs
  rw [RefState.headTarget_eq_iff, cells_foldRefs_eq_iff, or_iff_right hcell]

theorem foldRefs_unset_eq_iff {s : RefState} (hs : s.headTarget ≠ "") {es : List LogEntry} :
    foldRefs .unset es = foldRefs s es ↔ (∃ e ∈ es, e.Writes none) ∧
      ∀ name, (s.refs.find? name).isSome → ∃ e ∈ es, e.Writes (some name) := by
  rw [RefState.eq_iff, headTarget_foldRefs_unset hs, refs_foldRefs_unset]

section Reads

variable [Text.CharTables] {cfg : Config} {w : World} {g : Generation}

theorem Inv.readLogManifest_eq (h : Inv cfg w) (hg : g ∈ w.gens) (a : ℕ) (toSeq : Option ℕ) :
    let last := min (toSeq.getD g.manifest.headSeq) g.manifest.headSeq
    w.readLogManifest g.manifest (a + 1) toSeq =
      some (between LogEntry.seq (max a g.manifest.checkpointSeq) last
        (committedEntries w.gens)) := by
  intro last
  unfold World.readLogManifest
  by_cases hlt : last < a + 1
  · have hnil : between LogEntry.seq (max a g.manifest.checkpointSeq) last
        (committedEntries w.gens) = [] := by
      refine List.filter_eq_nil_iff.mpr fun e _ => ?_
      simp only [Bool.and_eq_true, decide_eq_true_eq]
      omega
    rw [if_pos hlt, hnil]
  · rw [if_neg hlt, Nat.add_sub_cancel, h.readLog_above hg a (min_le_right _ _)]

/-- A replay reads the entries above its start and above the checkpoint, up to the cut. -/
theorem Inv.replayRefs_eq (h : Inv cfg w) (hg : g ∈ w.gens) (held : Manifest)
    (learned : Option (Option Timestamp)) (cut : Cut) :
    let start := g.manifest.replayStart held learned cut
    let last := min (cut.toSeq.getD g.manifest.headSeq) g.manifest.headSeq
    w.replayRefs g.manifest held learned cut =
      .ok (start.1.replayRefs cut start.2
        (between LogEntry.seq (max start.2 g.manifest.checkpointSeq) last
          (committedEntries w.gens))) := by
  intro start last
  rw [World.replayRefs, h.readLogManifest_eq hg]

theorem Inv.entry_pos (h : Inv cfg w) {e : LogEntry} (he : e ∈ committedEntries w.gens) :
    0 < e.seq := by
  obtain ⟨g, gs, hgens, -⟩ := h.current
  have hchain := h.chain
  rw [hgens] at hchain he
  exact (hchain.entry_bounds he).1

theorem Inv.between_zero (h : Inv cfg w) (n : ℕ) :
    between LogEntry.seq 0 n (committedEntries w.gens) =
      upTo LogEntry.seq n (committedEntries w.gens) :=
  List.filter_congr fun e he => by simp [h.entry_pos he]

theorem Inv.refsAt_zero (h : Inv cfg w) : refsAt (committedEntries w.gens) 0 = .fresh := by
  rw [refsAt, Replay.upTo_eq_nil fun e he => h.entry_pos he, foldRefs_nil]

/-- A replay up to a sequence number. -/
theorem Inv.replayRefs_seq (h : Inv cfg w) (hg : g ∈ w.gens) {seq : ℕ}
    (hle : seq ≤ g.manifest.headSeq) :
    let start := g.manifest.replayStart g.manifest none (.seq seq)
    (w.replayRefs g.manifest g.manifest none (.seq seq)).map Prod.fst =
      .ok (foldRefs start.1 (between LogEntry.seq (max start.2 g.manifest.checkpointSeq) seq
        (committedEntries w.gens))) := by
  intro start
  rw [h.replayRefs_eq hg]
  simp only [Cut.toSeq, Option.getD_some, min_eq_left hle, Except.map, RefState.replayRefs_seq,
    start]

/-- When `refs_at_seq` answers, its snapshot is the log up to the sequence number exactly if
the manifest of its second read has a checkpoint at or below it, or has none while the log up
to it sets HEAD; its refs are, also without HEAD, unless that checkpoint is above. -/
theorem refsAtSeq_iff {access : Option RepoAccess} {now : Timestamp} {writer : String}
    {actions : List Action} {g' : Generation}
    (hrun : Runs.run (step cfg) (World.created (createdManifest access now writer)) actions =
      some w)
    (hfolds : w.FoldsCheckpoints) (hg : g ∈ w.gens) (hg' : g' ∈ w.gens)
    (hlater : g.manifest.revision ≤ g'.manifest.revision) {seq : ℕ} {refs : RefState}
    (hans : w.refsAtSeq g.manifest g'.manifest seq = .ok refs) :
    let log := committedEntries w.gens
    (refs = refsAt log seq ↔
      (∃ cp ∈ g'.manifest.checkpoint, cp.seq ≤ seq) ∨
        g'.manifest.checkpoint = none ∧ ∃ e ∈ upTo LogEntry.seq seq log, e.Writes none) ∧
    (refs.refs = (refsAt log seq).refs ↔
      (∀ cp ∈ g'.manifest.checkpoint, cp.seq ≤ seq) ∨ (refsAt log seq).refs = .empty) := by
  intro log
  have h := inv_run hrun
  have hhead : seq ≤ g'.manifest.headSeq := by
    have hle : seq ≤ g.manifest.headSeq := by
      by_contra hlt
      simp [World.refsAtSeq, not_le.mp hlt] at hans
    rcases h.chain.of_revision_le hg hg' hlater with rfl | ⟨-, hheads⟩
    · exact hle
    · exact hle.trans hheads
  have hreplay : (w.replayRefs g'.manifest g'.manifest none (.seq seq)).map Prod.fst =
      .ok refs := by
    simp only [World.refsAtSeq] at hans
    split_ifs at hans
    exact hans
  rw [h.replayRefs_seq hg' hhead, Except.ok.injEq] at hreplay
  have hne : (refsAt log seq).headTarget ≠ "" := foldRefs_headTarget_ne _
  cases hcp : g'.manifest.checkpoint with
  | none =>
    have hzero : g'.manifest.checkpointSeq = 0 := by simp [Manifest.checkpointSeq, hcp]
    simp only [Manifest.replayStart, hcp, hzero, max_self] at hreplay
    rw [h.between_zero] at hreplay
    have hfresh : ∀ name, (RefState.fresh.refs.find? name).isSome →
        ∃ e ∈ upTo LogEntry.seq seq log, e.Writes (some name) := by
      simp [RefState.fresh]
    have hrefs : refs.refs = (refsAt log seq).refs := by
      rw [← hreplay]
      exact refs_foldRefs_unset.mpr hfresh
    refine ⟨?_, iff_of_true hrefs (Or.inl (by simp))⟩
    rw [← hreplay, refsAt, foldRefs_unset_eq_iff (by decide)]
    exact ⟨fun hes => Or.inr ⟨rfl, hes.1⟩, fun hes => ⟨(hes.resolve_left (by simp)).2, hfresh⟩⟩
  | some cp =>
    have hseq : g'.manifest.checkpointSeq = cp.seq := by simp [Manifest.checkpointSeq, hcp]
    simp only [Manifest.replayStart, hcp, Cut.usable, hseq] at hreplay
    by_cases hle : cp.seq ≤ seq
    · have heq : refs = refsAt log seq := by
        simp only [hle, decide_true, if_true, max_self] at hreplay
        rw [← hreplay, hfolds g' hg' cp hcp]
        exact refsAt_between h.chain.sorted hle
      exact ⟨iff_of_true heq (Or.inl ⟨cp, rfl, hle⟩),
        iff_of_true (congrArg RefState.refs heq) (Or.inl (by simpa using hle))⟩
    · have hunset : refs = .unset := by
        have hnil : between LogEntry.seq (max 0 cp.seq) seq log = [] := by
          refine List.filter_eq_nil_iff.mpr fun e _ => ?_
          simp only [Bool.and_eq_true, decide_eq_true_eq]
          omega
        simp only [hle, decide_false, Bool.false_eq_true, if_false] at hreplay
        rw [← hreplay, hnil, foldRefs_nil]
      have hhead : refs ≠ refsAt log seq := by
        rintro heq
        exact hne (by rw [← heq, hunset]; rfl)
      refine ⟨iff_of_false hhead (by simpa using hle), ?_⟩
      rw [hunset]
      simpa [RefState.unset, hle] using eq_comm

/-- The entries a cut by time takes from the log above the checkpoint of a manifest. -/
def Manifest.tailUntil (m : Manifest) (log : List LogEntry) (limit : ℕ) : List LogEntry :=
  (between LogEntry.seq m.checkpointSeq m.headSeq log).takeWhile fun e =>
    !(Cut.time limit).stops e

/-- What the log above a checkpoint adds up to its last entry before a cut. -/
theorem Inv.refsAt_tailUntil (h : Inv cfg w) (hg : g ∈ w.gens) (limit : ℕ) :
    let log := committedEntries w.gens
    let applied := g.manifest.tailUntil log limit
    refsAt log ((applied.getLast?.map LogEntry.seq).getD g.manifest.checkpointSeq) =
      foldRefs (refsAt log g.manifest.checkpointSeq) applied := by
  intro log applied
  obtain ⟨gens, hsuffix⟩ := exists_suffix hg
  have hle := (h.chain.suffix hsuffix).logSpec.checkpoint_le_head
  have hsplit : between LogEntry.seq g.manifest.checkpointSeq g.manifest.headSeq log =
      applied ++ (between LogEntry.seq g.manifest.checkpointSeq g.manifest.headSeq log).dropWhile
        fun e => !(Cut.time limit).stops e := List.takeWhile_append_dropWhile.symm
  rw [refsAt, Replay.upTo_getLast h.chain.sorted hle hsplit, foldRefs_append]
  rfl

/-- The replay up to a time starts at the checkpoint or at nothing, and applies what the time
lets it take of the log above the checkpoint. -/
theorem Inv.refsAsOf_eq (h : Inv cfg w) (hg : g ∈ w.gens) (held : Manifest)
    (learned : Option (Option Timestamp)) (limit : ℕ) :
    let start := g.manifest.replayStart held learned (.time limit)
    let applied := g.manifest.tailUntil (committedEntries w.gens) limit
    w.refsAsOf g.manifest held learned limit =
      .ok (foldRefs start.1 applied, (applied.getLast?.map LogEntry.seq).getD start.2) := by
  intro start applied
  have hmax : max start.2 g.manifest.checkpointSeq = g.manifest.checkpointSeq := by
    refine max_eq_right ?_
    simp only [start, Manifest.replayStart, Manifest.checkpointSeq]
    cases g.manifest.checkpoint with
    | none => exact le_rfl
    | some cp =>
      simp only [Option.map_some, Option.getD_some]
      split_ifs
      · exact le_rfl
      · exact Nat.zero_le _
  rw [World.refsAsOf, h.replayRefs_eq hg, RefState.replayRefs_eq]
  simp only [Cut.toSeq, Option.getD_none, min_self]
  rw [hmax]
  rfl

/-- The refs of a checkpoint, or of a repository without one. -/
theorem Inv.refsAt_checkpointSeq (h : Inv cfg w) (hfolds : w.FoldsCheckpoints) (hg : g ∈ w.gens)
    {P : String → Prop} :
    (∀ name, ((refsAt (committedEntries w.gens) g.manifest.checkpointSeq).refs.find? name).isSome →
        P name) ↔
      ∀ cp ∈ g.manifest.checkpoint, ∀ name, (cp.refs.refs.find? name).isSome → P name := by
  cases hcp : g.manifest.checkpoint with
  | none =>
    have hzero : g.manifest.checkpointSeq = 0 := by simp [Manifest.checkpointSeq, hcp]
    simp [hzero, h.refsAt_zero, RefState.fresh]
  | some cp =>
    have hseq : g.manifest.checkpointSeq = cp.seq := by simp [Manifest.checkpointSeq, hcp]
    simp [hseq, hfolds g hg cp hcp]

/-- The snapshot `refs_as_of` answers is the log up to the sequence number it names exactly if
the checkpoint was usable, or what was applied without it sets HEAD and writes every ref the
checkpoint has; the refs alone are also where nothing was applied. -/
theorem refsAsOf_iff {access : Option RepoAccess} {now : Timestamp} {writer : String}
    {actions : List Action}
    (hrun : Runs.run (step cfg) (World.created (createdManifest access now writer)) actions =
      some w)
    (hfolds : w.FoldsCheckpoints) (hg : g ∈ w.gens) {held : Manifest}
    {learned : Option (Option Timestamp)} {limit seq : ℕ} {refs : RefState}
    (hans : w.refsAsOf g.manifest held learned limit = .ok (refs, seq)) :
    let log := committedEntries w.gens
    let applied := g.manifest.tailUntil log limit
    let usable := ∃ cp ∈ g.manifest.checkpoint, (Cut.time limit).usable cp held learned
    let rewritten := ∀ cp ∈ g.manifest.checkpoint, ∀ name, (cp.refs.refs.find? name).isSome →
      ∃ e ∈ applied, e.Writes (some name)
    (refs = refsAt log seq ↔ usable ∨ (∃ e ∈ applied, e.Writes none) ∧ rewritten) ∧
      (refs.refs = (refsAt log seq).refs ↔ usable ∨ applied = [] ∨ rewritten) := by
  intro log applied usable rewritten
  have h := inv_run hrun
  have hfold := h.refsAt_tailUntil hg limit
  have hne : (refsAt log g.manifest.checkpointSeq).headTarget ≠ "" := foldRefs_headTarget_ne _
  have hrewritten := h.refsAt_checkpointSeq hfolds hg
    (P := fun name => ∃ e ∈ applied, e.Writes (some name))
  rw [h.refsAsOf_eq hg, Except.ok.injEq, Prod.mk.injEq] at hans
  obtain ⟨hrefs, hseq⟩ := hans
  by_cases husable : usable
  · obtain ⟨cp, hcp, hus⟩ := id husable
    rw [Option.mem_def] at hcp
    have hstart : g.manifest.replayStart held learned (.time limit) = (cp.refs, cp.seq) := by
      simp [Manifest.replayStart, hcp, hus]
    have hcpSeq : g.manifest.checkpointSeq = cp.seq := by simp [Manifest.checkpointSeq, hcp]
    have heq : refs = refsAt log seq := by
      rw [← hrefs, ← hseq, hstart, ← hcpSeq, hfold, hfolds g hg cp hcp, hcpSeq]
    exact ⟨iff_of_true heq (Or.inl husable), iff_of_true (congrArg _ heq) (Or.inl husable)⟩
  · have hstart : g.manifest.replayStart held learned (.time limit) = (.unset, 0) := by
      unfold Manifest.replayStart
      cases hcp : g.manifest.checkpoint with
      | none => rfl
      | some cp => exact if_neg fun hus => husable ⟨cp, hcp, hus⟩
    rw [hstart] at hrefs hseq
    change foldRefs .unset applied = refs at hrefs
    change (applied.getLast?.map LogEntry.seq).getD 0 = seq at hseq
    by_cases hnone : applied = []
    · have hunset : refs = .unset := by rw [← hrefs, hnone, foldRefs_nil]
      have hfresh : refsAt log seq = .fresh := by rw [← hseq, hnone]; exact h.refsAt_zero
      rw [hunset, hfresh, hnone]
      exact ⟨iff_of_false (by decide) (by simp [husable]), iff_of_true rfl (Or.inr (Or.inl rfl))⟩
    · have hfull : refsAt log seq = foldRefs (refsAt log g.manifest.checkpointSeq) applied := by
        change refsAt log ((applied.getLast?.map LogEntry.seq).getD _) = _ at hfold
        rw [List.getLast?_eq_some_getLast hnone] at hfold hseq
        rw [← hseq]
        exact hfold
      rw [hfull, ← hrefs, or_iff_right husable, or_iff_right husable, or_iff_right hnone]
      exact ⟨(foldRefs_unset_eq_iff hne).trans (and_congr_right fun _ => hrewritten),
        refs_foldRefs_unset.trans hrewritten⟩

end Reads

section Runs

attribute [local instance] Text.asciiTables

def runWorld (actions : List Action) : Option World :=
  Runs.run (step ⟨3, List.length⟩) (World.created (createdManifest none ⟨1, 0⟩ "w")) actions

/-- A branch is pushed after these actions, by a writer whose clock shows `time`. -/
def pushAfter (actions : List Action) (t : ℕ) (nonce name : String) (time : ℤ) : List Action :=
  (runWorld actions).toList.flatMap fun w => w.gens.head?.toList.flatMap fun g =>
    let refs := refsAt (committedEntries w.gens) g.manifest.headSeq
    let basis : Basis := ⟨g.manifest, some g.version, .new refs, .empty, none⟩
    [.start t (.batch [Cluster.updating name "" oidA]),
      .capture t ⟨basis, ⟨"", .empty⟩, "w", ⟨time, 0⟩⟩,
      .claim t nonce (fun _ => ⟨time, 0⟩) .delivered, .swap t ⟨time, 0⟩ .delivered, .finish t]

/-- The newest manifest is checkpointed after these actions, with the time of its last entry. -/
def checkpointAfter (actions : List Action) (asOf : ℤ) : List Action :=
  (runWorld actions).toList.flatMap fun w => w.gens.head?.toList.map fun g =>
    let refs := refsAt (committedEntries w.gens) g.manifest.headSeq
    .rewrite (.checkpoint g.manifest
      ⟨g.manifest.headSeq, some ⟨asOf, 0⟩, none, some ⟨asOf, 0⟩, refs, none⟩)
      g.manifest g.version ⟨"", .empty⟩ "w" ⟨asOf, 0⟩ .delivered

/-- Two branches are pushed, the first one into the second slot, and folded. -/
def foldedPushes : List Action :=
  let pushed := race ++ pushAfter race 3 "d" "refs/heads/dev" 9
  pushed ++ checkpointAfter pushed 9

/-- Both reads find the checkpoint. -/
theorem refsAtSeq_iff_folded : ∃ w refs, runWorld foldedPushes = some w ∧
    refs = refsAt (committedEntries w.gens) 3 ∧
    refs.refs.find? "refs/heads/main" = some oidA := by
  have hrun : ((runWorld foldedPushes).bind fun w => w.gens.head?.bind fun g =>
      (w.refsAtSeq g.manifest g.manifest 3).toOption.map fun refs =>
        decide (w.FoldsCheckpoints ∧ w.refsAtSeq g.manifest g.manifest 3 = .ok refs ∧
          refs.refs.find? "refs/heads/main" = some oidA ∧
          ∃ cp ∈ g.manifest.checkpoint, cp.seq ≤ 3)) = some true := by decide +kernel
  obtain ⟨w, hw, hrest⟩ := Option.bind_eq_some_iff.mp hrun
  obtain ⟨g, hhead, hrest⟩ := Option.bind_eq_some_iff.mp hrest
  obtain ⟨refs, -, heq⟩ := Option.map_eq_some_iff.mp hrest
  obtain ⟨hfolds, hans, hmain, hcp⟩ := of_decide_eq_true heq
  have hg : g ∈ w.gens := List.mem_of_mem_head? hhead
  exact ⟨w, refs, hw, (refsAtSeq_iff hw hfolds hg hg le_rfl hans).1.mpr (Or.inl hcp), hmain⟩

/-- The checks read the manifest before the checkpoint, the replay the one with it. -/
theorem refsAtSeq_lost : ∃ w, runWorld foldedPushes = some w ∧ w.FoldsCheckpoints ∧
    ∃ g ∈ w.gens, ∃ g' ∈ w.gens, g.manifest.revision ≤ g'.manifest.revision ∧
      w.refsAtSeq g.manifest g'.manifest 2 = .ok .unset ∧
      (refsAt (committedEntries w.gens) 2).refs.find? "refs/heads/main" = some oidA := by
  have hrun : ((runWorld foldedPushes).map fun w : World => decide (w.FoldsCheckpoints ∧
      ∃ g ∈ w.gens, ∃ g' ∈ w.gens, g.manifest.revision ≤ g'.manifest.revision ∧
        w.refsAtSeq g.manifest g'.manifest 2 = .ok .unset ∧
        (refsAt (committedEntries w.gens) 2).refs.find? "refs/heads/main" = some oidA)) =
      some true := by decide
  obtain ⟨w, hw, heq⟩ := Option.map_eq_some_iff.mp hrun
  obtain ⟨hfolds, hlost⟩ := of_decide_eq_true heq
  exact ⟨w, hw, hfolds, hlost⟩

/-- A writer whose clock is behind pushes a third one. -/
def skewedPushes : List Action :=
  foldedPushes ++ pushAfter foldedPushes 4 "e" "refs/heads/topic" 5

/-- A cut at or after the time of the checkpoint. -/
theorem refsAsOf_iff_skewed : ∃ w refs, runWorld skewedPushes = some w ∧
    refs = refsAt (committedEntries w.gens) 4 ∧
    refs.refs.find? "refs/heads/dev" = some oidA := by
  have hrun : ((runWorld skewedPushes).bind fun w => w.gens.head?.bind fun g =>
      (w.refsAsOf g.manifest g.manifest none 10000000000).toOption.map fun r =>
        decide (w.FoldsCheckpoints ∧
          w.refsAsOf g.manifest g.manifest none 10000000000 = .ok (r.1, 4) ∧
          r.1.refs.find? "refs/heads/dev" = some oidA ∧
          ∃ cp ∈ g.manifest.checkpoint, (Cut.time 10000000000).usable cp g.manifest none)) =
      some true := by decide
  obtain ⟨w, hw, hrest⟩ := Option.bind_eq_some_iff.mp hrun
  obtain ⟨g, hhead, hrest⟩ := Option.bind_eq_some_iff.mp hrest
  obtain ⟨⟨refs, seq⟩, -, heq⟩ := Option.map_eq_some_iff.mp hrest
  obtain ⟨hfolds, hans, hdev, hcp⟩ := of_decide_eq_true heq
  have hg : g ∈ w.gens := List.mem_of_mem_head? hhead
  exact ⟨w, refs, hw, (refsAsOf_iff hw hfolds hg hans).1.mpr (Or.inl hcp), hdev⟩

/-- A cut before the time of the checkpoint, and after that of the push above it. -/
theorem refsAsOf_partial : ∃ w, runWorld skewedPushes = some w ∧ w.FoldsCheckpoints ∧
    ∃ g ∈ w.gens, ∃ refs : RefState,
      w.refsAsOf g.manifest g.manifest none 6000000000 = .ok (refs, 4) ∧
      refs.refs.find? "refs/heads/main" = none ∧
      (refsAt (committedEntries w.gens) 4).refs.find? "refs/heads/main" = some oidA := by
  have hrun : ((runWorld skewedPushes).bind fun w => w.gens.head?.bind fun g =>
      (w.refsAsOf g.manifest g.manifest none 6000000000).toOption.map fun r =>
        decide (w.FoldsCheckpoints ∧
          w.refsAsOf g.manifest g.manifest none 6000000000 = .ok (r.1, 4) ∧
          r.1.refs.find? "refs/heads/main" = none ∧
          (refsAt (committedEntries w.gens) 4).refs.find? "refs/heads/main" = some oidA)) =
      some true := by decide +kernel
  obtain ⟨w, hw, hrest⟩ := Option.bind_eq_some_iff.mp hrun
  obtain ⟨g, hhead, hrest⟩ := Option.bind_eq_some_iff.mp hrest
  obtain ⟨⟨refs, seq⟩, -, heq⟩ := Option.map_eq_some_iff.mp hrest
  obtain ⟨hfolds, hans, hpartial⟩ := of_decide_eq_true heq
  exact ⟨w, hw, hfolds, g, List.mem_of_mem_head? hhead, refs, hans, hpartial⟩

end Runs

end Walgit
