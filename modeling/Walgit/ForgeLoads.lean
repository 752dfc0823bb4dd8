import Walgit.HistoryCuts
import Walgit.LogReader

/-!
# Loading the forge state

`forge_ensure` reads the log without a lock and folds it under one, so a sync or a publisher may
fold in between. Whatever a handle calls, its forge state stays somewhere along the log, as long as
the checkpoints it starts from do.
-/
namespace Walgit

open Replay (upTo between)

section Calls

variable [Text.CharTables]

/-- The forge state that a checkpoint has; an empty one at its position if it stored none. -/
def CheckpointRef.forgeState (cp : CheckpointRef) : ForgeState :=
  match cp.forge with
  | some history => .fromHistory history
  | none => { ForgeState.empty with seq := cp.seq }

/-- Where a call resumes: what it loads from the checkpoint, and what it has then. -/
def Handle.forgeStart (handle : Handle) (m : Manifest) : Option ForgeState × ℕ :=
  let loaded := Copy.forgeEnsure.checkpointForge m
  match handle.forge with
  | some s => if max m.minSeq 1 ≤ s.seq + 1 then (none, s.seq) else (some loaded, loaded.seq)
  | none => (some loaded, loaded.seq)

/-- What a call folds under the lock: what it loaded is kept if it is newer. -/
def Handle.foldRead (handle : Handle) (fresh : Option ForgeState) (after : ℕ)
    (entries : List LogEntry) : Handle :=
  let kept :=
    match fresh, handle.forge with
    | none, held => held
    | some f, none => some f
    | some f, some s => if s.seq < f.seq then some f else some s
  { handle with forge := kept.map fun s => s.foldEntries after entries }

/-- Where a call of `forge_ensure` is. -/
inductive ForgeLoad where
  | asked (h : ℕ) (m : Manifest)
  | read (h : ℕ) (fresh : Option ForgeState) (after : ℕ) (entries : List LogEntry)
  deriving DecidableEq

/-- The whole system with the calls of `forge_ensure` that are under way. -/
structure ForgeLoads where
  cluster : Cluster
  loads : List ForgeLoad

inductive LoadEvent where
  | deed (d : Deed)
  | ask (h : ℕ)
  | read (k : ℕ)
  | fold (k : ℕ)

namespace ForgeLoads

def created (m : Manifest) : ForgeLoads := ⟨.created m, []⟩

/-- One step; `none` when it is not enabled. -/
def step (cfg : Config) (s : ForgeLoads) : LoadEvent → Option ForgeLoads
  | .deed d => (s.cluster.step cfg d).map fun cluster => { s with cluster := cluster }
  | .ask h => do
    let handle ← s.cluster.handles h
    some { s with loads := .asked h handle.manifest :: s.loads }
  | .read k => do
    match ← s.loads[k]? with
    | .asked h m =>
      let handle ← s.cluster.handles h
      if handle.forge.any fun f => m.headSeq ≤ f.seq then
        some { s with loads := s.loads.eraseIdx k }
      else
        let start := handle.forgeStart m
        let entries ← s.cluster.world.readLog m start.2 m.headSeq
        some { s with loads := s.loads.set k (.read h start.1 start.2 entries) }
    | .read .. => none
  | .fold k => do
    match ← s.loads[k]? with
    | .asked .. => none
    | .read h fresh after entries =>
      let handle ← s.cluster.handles h
      some {
        cluster := { s.cluster with
          handles := Function.update s.cluster.handles h
            (some (handle.foldRead fresh after entries)) }
        loads := s.loads.eraseIdx k }

end ForgeLoads

/-- A call that nothing interrupts. -/
theorem forgeEnsure_eq_calls (c : Copy) (read : ℕ → ℕ → Option (List LogEntry)) :
    c.forgeEnsure read =
      let m := c.handle.manifest
      let start := c.handle.forgeStart m
      if c.handle.forge.any fun f => m.headSeq ≤ f.seq then some c
      else (read start.2 m.headSeq).map fun entries =>
        { c with handle := c.handle.foldRead start.1 start.2 entries } := by
  obtain ⟨disk, ⟨site, m, version, state, forge⟩⟩ := c
  simp only [Copy.forgeEnsure, Handle.forgeStart, Handle.foldRead, Copy.setForge]
  cases forge with
  | none => rfl
  | some s =>
    by_cases hresume : max m.minSeq 1 ≤ s.seq + 1
    · simp only [if_pos hresume, Bool.false_and, Bool.false_eq_true, if_false, Option.map_some]
    · by_cases hnewer : s.seq < (Copy.forgeEnsure.checkpointForge m).seq
      · simp only [if_neg hresume, hnewer, decide_true, Bool.and_self, if_true, Option.map_some]
      · simp only [if_neg hresume, hnewer, decide_false, Bool.and_false, Bool.false_eq_true,
          if_false, Option.map_some]

end Calls

section Positions

variable [Text.CharTables] {cfg : Config} {w w' : World} {g : Generation} {f : ForgeState}

/-- The forge state is the fold of a prefix of the committed log. -/
def ForgeState.On (f : ForgeState) (w : World) : Prop :=
  follow.Reached (committedEntries w.gens) f

theorem Inv.ordered (h : Inv cfg w) : ForgeState.follow.Ordered (committedEntries w.gens) :=
  ⟨h.chain.sorted, fun _ he => h.entry_pos he⟩

namespace ForgeState.On

theorem eq_forgeAt (hf : f.On w) : f = Walgit.forgeAt w f.seq := Catchup.Fold.Reached.exact hf

theorem forgeAt (h : Inv cfg w) (n : ℕ) : (Walgit.forgeAt w n).On w :=
  Catchup.Fold.reached_upTo h.ordered n

theorem grows (hf : f.On w) (h' : Inv cfg w') (hgrows : w.Grows w') : f.On w' := by
  obtain ⟨new, hlog, -⟩ := hgrows.log
  have hordered := h'.ordered
  unfold ForgeState.On
  rw [hlog] at hordered ⊢
  exact Catchup.Fold.Reached.append hf hordered

/-- Folding what a reader gets, from wherever it starts above the checkpoint. -/
theorem foldEntries (hf : f.On w) (h : Inv cfg w) (hg : g ∈ w.gens) {after : ℕ}
    (hafter : g.manifest.checkpointSeq ≤ after) {entries : List LogEntry}
    (hread : w.readLog g.manifest after g.manifest.headSeq = some entries) :
    (f.foldEntries after entries).On w := by
  rw [h.readLog hg hafter le_rfl, Option.some.injEq] at hread
  rw [← hread]
  exact Catchup.Fold.Reached.foldFrom hf h.ordered after g.manifest.headSeq

end ForgeState.On

/-- What may be said of a forge state wherever it stands along the log: it holds of the empty
state, stays while the log grows and survives folding what a reader gets. -/
structure Standing (cfg : Config) (P : ForgeState → World → Prop) : Prop where
  empty : ∀ {w}, Inv cfg w → P .empty w
  grows : ∀ {w w' f}, P f w → Inv cfg w' → w.Grows w' → P f w'
  foldEntries : ∀ {w f g after entries}, P f w → Inv cfg w → g ∈ w.gens →
    g.manifest.checkpointSeq ≤ after →
      w.readLog g.manifest after g.manifest.headSeq = some entries →
        P (f.foldEntries after entries) w

theorem standing_on : Standing cfg ForgeState.On where
  empty h := Catchup.Fold.reached_init h.ordered
  grows := ForgeState.On.grows
  foldEntries hf h hg hafter hread := hf.foldEntries h hg hafter hread

/-- A checkpoint has the forge state of the log up to it. -/
structure CheckpointRef.Kept (w : World) (cp : CheckpointRef) : Prop where
  on : cp.forgeState.On w
  seq : cp.forgeState.seq = cp.seq

structure CheckpointRef.Holds (P : ForgeState → World → Prop) (w : World) (cp : CheckpointRef) :
    Prop where
  state : P cp.forgeState w
  seq : cp.forgeState.seq = cp.seq

theorem CheckpointRef.kept_iff {cp : CheckpointRef} : cp.Kept w ↔ cp.Holds ForgeState.On w :=
  ⟨fun h => ⟨h.on, h.seq⟩, fun h => ⟨h.state, h.seq⟩⟩

theorem checkpointForge_eq (m : Manifest) : Copy.forgeEnsure.checkpointForge m =
    (m.checkpoint.map CheckpointRef.forgeState).getD .empty := by
  unfold Copy.forgeEnsure.checkpointForge CheckpointRef.forgeState
  cases m.checkpoint <;> rfl

/-- What a manifest's checkpoint gives a cold handle. -/
theorem checkpointForge_holds {P : ForgeState → World → Prop} (hP : Standing cfg P)
    (h : Inv cfg w) {m : Manifest} (hkept : ∀ cp, m.checkpoint = some cp → cp.Holds P w) :
    P (Copy.forgeEnsure.checkpointForge m) w ∧
      (Copy.forgeEnsure.checkpointForge m).seq = m.checkpointSeq := by
  rw [checkpointForge_eq, Manifest.checkpointSeq]
  cases hcp : m.checkpoint with
  | none => exact ⟨hP.empty h, rfl⟩
  | some cp => exact ⟨(hkept cp hcp).state, (hkept cp hcp).seq⟩

/-- The head of a manifest is the position of its last entry. -/
theorem Chain.head_entry {gens : List Generation} (h : Chain cfg (g :: gens)) :
    g.manifest.headSeq = 0 ∨
      ∃ e ∈ committedEntries (g :: gens), e.seq = g.manifest.headSeq := by
  generalize hl : g :: gens = l at h
  induction h generalizing g gens with
  | created access now writer version =>
    cases hl
    exact Or.inl rfl
  | append older o now m version basis wrote burned edit newer ih =>
    cases hl
    have hlog := Job.manifest_logPart edit (fun hb => wrote.lastSeq_of_not_batch hb)
      (basis ▸ older.logSpec.sorted_append burned.1)
    have hhead : m.headSeq = o.slot.lastSeq := congrArg LogPart.headSeq hlog
    have hlast : o.slot.lastSeq ∈ o.slot.bytes.map LogEntry.seq := by
      have := wrote.lastSeq_eq
      have := wrote.first_le_last
      rw [wrote.seqs, List.mem_range'_1]
      omega
    obtain ⟨e, he, hseq⟩ := List.mem_map.mp hlast
    exact Or.inr ⟨e, List.mem_append_right _ he, hseq.trans hhead.symm⟩
  | rewrite older job policy writer now m version edit folded newer ih =>
    cases hl
    have hhead : m.headSeq = _ := MetaJob.manifest_headSeq edit
    simp only [hhead, committedEntries, Option.map_none, Option.getD_none, List.append_nil]
    exact ih rfl

/-- At the head of a manifest the fold of the log has that position. -/
theorem Inv.seq_forgeAt (h : Inv cfg w) (hg : g ∈ w.gens) :
    (forgeAt w g.manifest.headSeq).seq = g.manifest.headSeq := by
  obtain ⟨gens, hsuffix⟩ := exists_suffix hg
  have hle := ForgeState.recorded.seq_upTo_le (committedEntries w.gens) g.manifest.headSeq
  rcases (h.chain.suffix hsuffix).head_entry with h0 | ⟨e, he, hseq⟩
  · exact le_antisymm hle (h0 ▸ Nat.zero_le _)
  · rw [← h.chain.upTo_head hsuffix] at he
    have hmem := List.mem_of_mem_filter he
    rw [← hseq]
    exact ForgeState.recorded.seq_upTo hmem

end Positions

section Handles

variable [Text.CharTables] {cfg : Config} {P : ForgeState → World → Prop} {w w' : World}
  {g : Generation} {c c' : Copy} {m : Manifest} {v : ℕ}

/-- A handle holds a committed manifest, and its forge state is a fold of the log. -/
structure Handle.Forged (w : World) (handle : Handle) : Prop where
  held : ∃ g ∈ w.gens, g.manifest = handle.manifest
  forge : ∀ f ∈ handle.forge, f.On w

structure Handle.Holds (P : ForgeState → World → Prop) (w : World) (handle : Handle) : Prop where
  held : ∃ g ∈ w.gens, g.manifest = handle.manifest
  forge : ∀ f ∈ handle.forge, P f w

theorem Handle.forged_iff {handle : Handle} : handle.Forged w ↔ handle.Holds ForgeState.On w :=
  ⟨fun h => ⟨h.held, h.forge⟩, fun h => ⟨h.held, h.forge⟩⟩

theorem Handle.Holds.grows (hP : Standing cfg P) {handle : Handle} (hh : handle.Holds P w)
    (h' : Inv cfg w') (hgrows : w.Grows w') : handle.Holds P w' := by
  obtain ⟨g, hg, hm⟩ := hh.held
  exact ⟨⟨g, hgrows.gens hg, hm⟩, fun f hf => hP.grows (hh.forge f hf) h' hgrows⟩

namespace Copy

omit [Text.CharTables] in
theorem loadCheckpoint_handle (c : Copy) (m : Manifest) (fault : Option Fault) :
    ∃ state, (c.loadCheckpoint m fault).1.handle = { c.handle with state := state } ∧
      ((c.loadCheckpoint m fault).2 = true → m.checkpointSeq ≤ state.appliedSeq) := by
  unfold loadCheckpoint Manifest.checkpointSeq
  cases m.checkpoint with
  | none => exact ⟨c.handle.state, rfl, fun _ => Nat.zero_le _⟩
  | some cp =>
    simp only
    split_ifs with hle
    · exact ⟨c.handle.state, rfl, fun _ => hle⟩
    · split
      · exact ⟨c.handle.state, rfl, by simp⟩
      · exact ⟨_, rfl, fun _ => le_rfl⟩

/-- A sync folds what it replayed. -/
theorem replayLog_holds (hP : Standing cfg P) (h : Inv cfg w) (hg : g ∈ w.gens)
    (hc : c.handle.Holds P w) {after : ℕ} (hafter : g.manifest.checkpointSeq ≤ after)
    (fault : Option Fault) :
    (c.replayLog (w.readLog g.manifest) after g.manifest.headSeq fault).1.handle.Holds P w := by
  unfold replayLog
  cases hread : w.readLog g.manifest after g.manifest.headSeq with
  | none => exact hc
  | some entries =>
    simp only
    split_ifs
    · exact hc
    · split
      · exact hc
      · split
        · exact hc
        · refine ⟨hc.held, fun f hf => ?_⟩
          obtain ⟨f₀, hf₀, rfl⟩ := Option.map_eq_some_iff.mp hf
          exact hP.foldEntries (hc.forge f₀ hf₀) h hg hafter hread

theorem applyDelta_holds (hP : Standing cfg P) (h : Inv cfg w) (hg : g ∈ w.gens)
    (hc : c.handle.Holds P w) (fault : Option Fault) :
    (c.applyDelta (w.readLog g.manifest) g.manifest fault).1.handle.Holds P w := by
  unfold applyDelta
  split_ifs with hearly
  · exact hc
  · obtain ⟨state, hload, hfloor⟩ := c.loadCheckpoint_handle g.manifest fault
    set r := c.loadCheckpoint g.manifest fault
    have hloaded : r.1.handle.Holds P w := by
      rw [hload]
      exact ⟨hc.held, hc.forge⟩
    cases hdone : r.2 with
    | false =>
      simp only [hdone, Bool.not_false, if_true]
      exact hloaded
    | true =>
      have hafter : g.manifest.checkpointSeq ≤ r.1.handle.state.appliedSeq := by
        rw [hload]
        exact hfloor hdone
      have hreplayed := replayLog_holds hP h hg hloaded hafter fault
      simp only [hdone, Bool.not_true, Bool.false_eq_true, if_false]
      split_ifs
      · exact hreplayed
      · exact ⟨hreplayed.held, hreplayed.forge⟩
      · exact hloaded
      · exact ⟨hloaded.held, hloaded.forge⟩

omit [Text.CharTables] in
theorem adopt_holds (hg : g ∈ w.gens) (hc : c.handle.Holds P w) {version : ℕ}
    (h : c.adopt g.manifest version = some c') : c'.handle.Holds P w := by
  obtain ⟨-, rfl⟩ := adopt_eq_some h
  exact ⟨⟨g, hg, rfl⟩, hc.forge⟩

omit [Text.CharTables] in
/-- Bringing a copy to a manifest and adopting it. -/
theorem adopted_holds (hg : g ∈ w.gens) (hc : c.handle.Holds P w) (version : ℕ) :
    ((c.adopt g.manifest version).getD c).handle.Holds P w := by
  cases hadopt : c.adopt g.manifest version with
  | none => exact hc
  | some c' => exact adopt_holds hg hc hadopt

theorem sync_holds (hP : Standing cfg P) (h : Inv cfg w) (hcur : w.current = some (m, v))
    (hc : c.handle.Holds P w) (fault : Option Fault) :
    (c.sync (w.readLog m) m v fault).1.handle.Holds P w := by
  obtain ⟨g, hg, rfl, rfl⟩ := h.current_generated hcur
  have hdelta := applyDelta_holds hP h hg hc fault
  unfold sync
  split_ifs
  · exact hc
  · exact hc
  · exact adopted_holds hg hc _
  · simp only
    split_ifs
    · exact adopted_holds hg hdelta _
    · exact hdelta

theorem rematerialize_holds (hP : Standing cfg P) (h : Inv cfg w) (hcur : w.current = some (m, v))
    (hc : c.handle.Holds P w) (fault : Option Fault) :
    (c.rematerialize (w.readLog m) m v fault).1.handle.Holds P w := by
  obtain ⟨g, hg, rfl, rfl⟩ := h.current_generated hcur
  have hdelta := applyDelta_holds hP (c := c.setState { c.handle.state with appliedSeq := 0 }) h hg
    ⟨hc.held, hc.forge⟩ fault
  unfold rematerialize
  simp only
  split_ifs
  · exact adopted_holds hg hdelta _
  · exact hdelta

theorem opened_holds (hP : Standing cfg P) (h : Inv cfg w) (hcur : w.current = some (m, v))
    (site : ℕ) (disk : Disk) (fault : Option Fault) :
    (Copy.opened site disk (w.readLog m) m v fault).1.handle.Holds P w := by
  obtain ⟨g, hg, rfl, rfl⟩ := h.current_generated hcur
  have hnew : Handle.Holds P w ⟨site, g.manifest, some g.version, disk.saved, none⟩ :=
    ⟨⟨g, hg, rfl⟩, by simp⟩
  unfold Copy.opened
  simp only
  split_ifs
  · exact applyDelta_holds hP h hg hnew fault
  · exact hnew

theorem settleBatch_holds (hP : Standing cfg P) (h : Inv cfg w) (hg : g ∈ w.gens)
    (hc : c.handle.Holds P w) (ts : List RefTransaction) (version lastSeq : ℕ)
    (fault : Option CommitFault) :
    (c.settleBatch (w.readLog g.manifest) ts g.manifest version lastSeq fault).handle.Holds
      P w := by
  have hbatch : (c.applyBatch ts fault).1.handle.Holds P w := by
    rw [applyBatch_handle]
    exact hc
  have hdelta := applyDelta_holds hP h hg hc (CommitFault.delta fault)
  unfold settleBatch
  extract_lets applied r
  have hr : r.1.handle.Holds P w := by
    simp only [r]
    split_ifs
    · exact hdelta
    · exact hc
    · exact hbatch
  split
  · split
    · rename_i hadopt
      have hheld := adopt_holds hg hr hadopt
      exact ⟨hheld.held, hheld.forge⟩
    · exact hr
  · exact ⟨hr.held, hr.forge⟩

theorem settleOne_holds (hP : Standing cfg P) (h : Inv cfg w) (hg : g ∈ w.gens)
    (hc : c.handle.Holds P w) (job : Job) (version seq : ℕ) (fault : Option CommitFault) :
    (c.settleOne (w.readLog g.manifest) job g.manifest version seq fault).handle.Holds P w := by
  have hdelta := applyDelta_holds hP h hg hc (CommitFault.delta fault)
  unfold settleOne
  extract_lets behind r
  have hr : r.1.handle.Holds P w := by
    simp only [r]
    split_ifs
    · exact hdelta
    · exact hc
  split
  · split
    · rename_i hadopt
      have hheld := adopt_holds hg hr hadopt
      exact ⟨hheld.held, hheld.forge⟩
    · exact hr
  · split
    · exact ⟨hr.held, hr.forge⟩
    · exact hr

omit [Text.CharTables] in
theorem adoptWrite_holds {p : Adoption} (hp : ∃ g ∈ w.gens, g.manifest = p.manifest)
    (hc : c.handle.Holds P w) (saves : Bool) : (c.adoptWrite p saves).handle.Holds P w := by
  obtain ⟨g, hg, hm⟩ := hp
  unfold adoptWrite
  split
  · exact hc
  · rename_i c₁ hadopt
    have hheld := adopt_holds hg hc (hm ▸ hadopt)
    split <;> exact ⟨hheld.held, hheld.forge⟩

end Copy

end Handles

end Walgit
