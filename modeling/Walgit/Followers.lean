import Walgit.Accounts
import Walgit.Catchup
import Walgit.Forge

/-!
# Followers of the log

The forge and the account states as incremental folds: a publisher folds what it
committed, a reader what it read, and either may rebuild the state from a checkpoint's
history.
-/
namespace Walgit

namespace ForgeState

/-- Events read and write neither the position nor the records. -/
theorem apply_at (s : ForgeState) (n : ℕ) (rs : List ForgeRecord) (id : ℕ) (time : String)
    (ev : ForgeEvent) : ({ s with seq := n, records := rs } : ForgeState).apply id time ev =
      { s.apply id time ev with seq := n, records := rs } := by
  unfold apply
  split
  · rfl
  · split_ifs <;> rfl
  · rfl
  · rfl

variable [Text.CharTables]

theorem crossReference_at (s : ForgeState) (n : ℕ) (rs : List ForgeRecord) (id : ℕ) (time : String)
    (ev : ForgeEvent) :
    ({ s with seq := n, records := rs } : ForgeState).crossReference id time ev =
      { s.crossReference id time ev with seq := n, records := rs } := by
  unfold crossReference
  split <;> rfl

theorem applyEvents_at (s : ForgeState) (n : ℕ) (rs : List ForgeRecord) (seq : ℕ) (time : String)
    (i : ℕ) (evs : List ForgeEvent) :
    ({ s with seq := n, records := rs } : ForgeState).applyEvents seq time i evs =
      { s.applyEvents seq time i evs with seq := n, records := rs } := by
  induction evs generalizing s i with
  | nil => rfl
  | cons ev evs ih => simp only [applyEvents, apply_at, crossReference_at, ih]

theorem applyRecord_records (s : ForgeState) (r : ForgeRecord) :
    (s.applyRecord r).records = s.records ++ [r] := by
  have h := applyEvents_at s s.seq s.records r.seq (forgeTime r.at?) 0 r.events
  simp only [applyRecord, congrArg ForgeState.records h]

theorem applyRecord_setSeq (s : ForgeState) (n : ℕ) (r : ForgeRecord) :
    ({ s with seq := n } : ForgeState).applyRecord r = { s.applyRecord r with seq := n } := by
  have h := applyEvents_at s n s.records r.seq (forgeTime r.at?) 0 r.events
  have h' := applyEvents_at s s.seq s.records r.seq (forgeTime r.at?) 0 r.events
  simp only [applyRecord, h, congrArg ForgeState.records h']

/-- A history rebuilds a state record by record. -/
theorem fromHistory_snoc (rs : List ForgeRecord) (r : ForgeRecord) (n m : ℕ) :
    fromHistory ⟨m, rs ++ [r]⟩ = { (fromHistory ⟨n, rs⟩).applyRecord r with seq := m } := by
  simp only [fromHistory, List.foldl_append, List.foldl_cons, List.foldl_nil, applyRecord_setSeq]

/-- The state is what its own records rebuild. -/
def Rebuilt (s : ForgeState) : Prop :=
  (∀ r ∈ s.records, r.seq ≤ s.seq) ∧ fromHistory ⟨s.seq, s.records⟩ = s

theorem Rebuilt.foldEntry {s : ForgeState} (h : s.Rebuilt) (e : LogEntry) :
    (s.foldEntry e).Rebuilt := by
  obtain ⟨hseq, hrecords⟩ := h
  unfold ForgeState.foldEntry
  split_ifs with hle hempty
  · exact ⟨hseq, hrecords⟩
  · refine ⟨fun r hr => (hseq r hr).trans (not_le.mp hle).le, ?_⟩
    exact congrArg (fun t : ForgeState => { t with seq := e.seq }) hrecords
  · refine ⟨fun r hr => ?_, ?_⟩
    · simp only [applyRecord_records, List.mem_append, List.mem_singleton] at hr ⊢
      rcases hr with hr | rfl
      · exact (hseq r hr).trans (not_le.mp hle).le
      · exact le_rfl
    · simp only [applyRecord_records]
      rw [fromHistory_snoc s.records _ s.seq, hrecords]
      simp only [applyRecord_records]

theorem fromHistory_historyUpto {s : ForgeState} (h : s.Rebuilt) :
    fromHistory (s.historyUpto s.seq) = s := by
  have hall : s.records.filter (fun r => r.seq ≤ s.seq) = s.records :=
    List.filter_eq_self.mpr fun r hr => by simpa using h.1 r hr
  rw [historyUpto, hall]
  exact h.2

theorem rebuilt_foldl (es : List LogEntry) : (es.foldl foldEntry empty).Rebuilt := by
  induction es using List.reverseRecOn with
  | nil => exact ⟨by simp [empty], rfl⟩
  | append_singleton es e ih =>
    rw [List.foldl_append]
    exact ih.foldEntry e

/-- The forge state of a repository as a fold of its log. -/
def follow : Catchup.Fold ForgeState LogEntry where
  init := empty
  seq := ForgeState.seq
  pos := LogEntry.seq
  apply := foldEntry
  reload s := fromHistory (s.historyUpto s.seq)
  start := rfl
  skips s e h := by simp [foldEntry, h]
  moves s e h := by rw [foldEntry_seq]; omega
  reloads es := fromHistory_historyUpto (rebuilt_foldl es)

theorem follow_foldFrom : follow.foldFrom = foldEntries := rfl

end ForgeState

namespace AccountsState

theorem reserve_at (s : AccountsState) (n : ℕ) (rs : List AccountRecord) (login : String) :
    ({ s with seq := n, records := rs } : AccountsState).reserve login =
      { s.reserve login with seq := n, records := rs } := by
  unfold reserve
  split_ifs <;> rfl

/-- Events read and write neither the position nor the records. -/
theorem apply_at (s : AccountsState) (n : ℕ) (rs : List AccountRecord) (ev : AccountEvent) :
    ({ s with seq := n, records := rs } : AccountsState).apply ev =
      { s.apply ev with seq := n, records := rs } := by
  cases ev with
  | genesis reserved =>
    have hfold : ∀ (l : List String) (t : AccountsState),
        l.foldl reserve { t with seq := n, records := rs } =
          { l.foldl reserve t with seq := n, records := rs } := by
      intro l
      induction l with
      | nil => exact fun _ => rfl
      | cons login l ih =>
        intro t
        rw [List.foldl_cons, List.foldl_cons, reserve_at, ih]
    exact hfold reserved { s with genesis := true }
  | namespaceReserved login => exact reserve_at s n rs login
  | _ => rfl

theorem foldl_apply_at (s : AccountsState) (n : ℕ) (rs : List AccountRecord)
    (evs : List AccountEvent) :
    evs.foldl apply { s with seq := n, records := rs } =
      { evs.foldl apply s with seq := n, records := rs } := by
  induction evs generalizing s with
  | nil => rfl
  | cons ev evs ih => rw [List.foldl_cons, List.foldl_cons, apply_at, ih]

theorem applyRecord_setSeq (s : AccountsState) (n : ℕ) (r : AccountRecord) :
    ({ s with seq := n } : AccountsState).applyRecord r = { s.applyRecord r with seq := n } := by
  have h := foldl_apply_at s n s.records r.events
  simp only [applyRecord, h]

theorem fromHistory_snoc (rs : List AccountRecord) (r : AccountRecord) (n m : ℕ) :
    fromHistory ⟨m, rs ++ [r]⟩ = { (fromHistory ⟨n, rs⟩).applyRecord r with seq := m } := by
  simp only [fromHistory, List.foldl_append, List.foldl_cons, List.foldl_nil, applyRecord_setSeq]

/-- The state is what its own records rebuild. -/
def Rebuilt (s : AccountsState) : Prop :=
  (∀ r ∈ s.records, r.seq ≤ s.seq) ∧ fromHistory ⟨s.seq, s.records⟩ = s

theorem Rebuilt.foldEntry {s : AccountsState} (h : s.Rebuilt) (e : LogEntry) :
    (s.foldEntry e).Rebuilt := by
  obtain ⟨hseq, hrecords⟩ := h
  unfold AccountsState.foldEntry
  split_ifs with hle hempty
  · exact ⟨hseq, hrecords⟩
  · refine ⟨fun r hr => (hseq r hr).trans (not_le.mp hle).le, ?_⟩
    exact congrArg (fun t : AccountsState => { t with seq := e.seq }) hrecords
  · refine ⟨fun r hr => ?_, ?_⟩
    · simp only [applyRecord, List.mem_append, List.mem_singleton] at hr ⊢
      rcases hr with hr | rfl
      · exact (hseq r hr).trans (not_le.mp hle).le
      · exact le_rfl
    · simp only [applyRecord]
      rw [fromHistory_snoc s.records _ s.seq, hrecords]
      rfl

theorem fromHistory_historyUpto {s : AccountsState} (h : s.Rebuilt) :
    fromHistory (s.historyUpto s.seq) = s := by
  have hall : s.records.filter (fun r => r.seq ≤ s.seq) = s.records :=
    List.filter_eq_self.mpr fun r hr => by simpa using h.1 r hr
  rw [historyUpto, hall]
  exact h.2

theorem rebuilt_foldl (es : List LogEntry) : (es.foldl foldEntry empty).Rebuilt := by
  induction es using List.reverseRecOn with
  | nil => exact ⟨by simp [empty], rfl⟩
  | append_singleton es e ih =>
    rw [List.foldl_append]
    exact ih.foldEntry e

/-- The account directory as a fold of the account log. -/
def follow : Catchup.Fold AccountsState LogEntry where
  init := empty
  seq := AccountsState.seq
  pos := LogEntry.seq
  apply := foldEntry
  reload s := fromHistory (s.historyUpto s.seq)
  start := rfl
  skips s e h := by simp [foldEntry, h]
  moves s e h := by simp [foldEntry, not_le.mpr h]
  reloads es := fromHistory_historyUpto (rebuilt_foldl es)

theorem follow_foldFrom : follow.foldFrom = foldEntries := rfl

end AccountsState

/-- Whatever ranges publishers and readers fold and in whatever order, and however often the
state is rebuilt, both states are the fold of exactly the committed entries up to their
position. -/
theorem incremental_folds_exact [Text.CharTables] :
    (∀ actions f, Runs.run ForgeState.follow.step ⟨[], none⟩ actions = some f → ∀ s ∈ f.state,
      s = (f.log.filter fun e => e.seq ≤ s.seq).foldl ForgeState.foldEntry ForgeState.empty) ∧
    (∀ actions f, Runs.run AccountsState.follow.step ⟨[], none⟩ actions = some f → ∀ s ∈ f.state,
      s = (f.log.filter fun e => e.seq ≤ s.seq).foldl AccountsState.foldEntry
        AccountsState.empty) :=
  ⟨fun _ _ hrun _ hs => Catchup.Fold.run_exact hrun hs,
    fun _ _ hrun _ hs => Catchup.Fold.run_exact hrun hs⟩

section Overlap

attribute [local instance] Text.asciiTables

/-- A log with a burned sequence number, folded in overlapping ranges. -/
def overlapping : List (Catchup.Action LogEntry) :=
  let label : ForgeEvent := ⟨0, "dev", "u1", some (.label ⟨"bug", "#ff0000", "", false⟩)⟩
  let opened : ForgeEvent := ⟨1, "dev", "u1", some (.opened { (default : ForgeOpened) with
    kind := .issue, title := "first" })⟩
  [.commit { seq := 1, forge := [label] }, .load 1, .commit { seq := 3, forge := [opened] },
    .fold 2 3, .fold 1 3, .fold 0 3, .commit { seq := 4 }, .fold 3 4, .load 3]

theorem incremental_folds_exact_overlapping :
    ∃ f s, Runs.run ForgeState.follow.step ⟨[], none⟩ overlapping = some f ∧ f.state = some s ∧
      s.seq = 4 ∧
      s = (f.log.filter fun e => e.seq ≤ s.seq).foldl ForgeState.foldEntry ForgeState.empty := by
  have hsome : (Runs.run ForgeState.follow.step ⟨[], none⟩ overlapping).map
      (fun f => f.state.map ForgeState.seq) = some (some 4) := by decide
  obtain ⟨f, hrun, hstate⟩ := Option.map_eq_some_iff.mp hsome
  obtain ⟨s, hs, hseq⟩ := Option.map_eq_some_iff.mp hstate
  exact ⟨f, s, hrun, hs, hseq, incremental_folds_exact.1 overlapping f hrun s hs⟩

end Overlap

end Walgit
