import Walgit.History

/-!
# Cuts of a history

A state keeps the records it applied, and a checkpoint below its position takes a prefix of
them. The prefix rebuilds the fold of the log up to the cut; only the position is the cut
itself, where the fold stops at the last entry before it.
-/
namespace Catchup

open Replay (upTo Sorted)

/-- A fold that writes down what it applies and can be rebuilt from what it wrote. -/
structure Recorded (σ ε ρ : Type) extends Fold σ ε where
  records : σ → List ρ
  date : ρ → ℕ
  /-- What an entry adds to the records. -/
  record : ε → List ρ
  rebuild : ℕ → List ρ → σ
  initially : records init = []
  grows : ∀ s e, seq s < pos e → records (apply s e) = records s ++ record e
  dated : ∀ e, ∀ r ∈ record e, date r = pos e
  restores : ∀ es : List ε, rebuild (seq (es.foldl apply init)) (records (es.foldl apply init)) =
    es.foldl apply init

namespace Recorded

variable {σ ε ρ : Type} (F : Recorded σ ε ρ) {log : List ε}

/-- The records of a fold are those of its entries. -/
theorem records_foldl (hsorted : Sorted F.pos log) (s : σ) (habove : ∀ e ∈ log, F.seq s < F.pos e) :
    F.records (log.foldl F.apply s) = F.records s ++ log.flatMap F.record := by
  induction log generalizing s with
  | nil => simp
  | cons e log ih =>
    obtain ⟨hhead, htail⟩ := List.pairwise_cons.mp hsorted
    have he := habove e List.mem_cons_self
    have hlater : ∀ e' ∈ log, F.seq (F.apply s e) < F.pos e' := fun e' he' => by
      rw [F.moves s e he]
      exact hhead e' he'
    rw [List.foldl_cons, ih htail _ hlater, F.grows s e he, List.flatMap_cons, List.append_assoc]

/-- Records of entries up to `n` are the records up to `n`. -/
theorem filter_record (n : ℕ) (e : ε) :
    (F.record e).filter (fun r => F.date r ≤ n) = if F.pos e ≤ n then F.record e else [] := by
  split_ifs with hle
  · exact List.filter_eq_self.mpr fun r hr => by simpa [F.dated e r hr] using hle
  · exact List.filter_eq_nil_iff.mpr fun r hr => by simpa [F.dated e r hr] using hle

theorem filter_records (hsorted : Sorted F.pos log) (hpos : ∀ e ∈ log, 0 < F.pos e) (n : ℕ) :
    (F.records (log.foldl F.apply F.init)).filter (fun r => F.date r ≤ n) =
      F.records ((upTo F.pos n log).foldl F.apply F.init) := by
  have hcut : Sorted F.pos (upTo F.pos n log) := hsorted.sublist List.filter_sublist
  have habove : ∀ e ∈ log, F.seq F.init < F.pos e := fun e he => F.start ▸ hpos e he
  have hbelow : ∀ e ∈ upTo F.pos n log, F.seq F.init < F.pos e := fun e he =>
    habove e (List.mem_of_mem_filter he)
  rw [F.records_foldl hsorted _ habove, F.records_foldl hcut _ hbelow, F.initially,
    List.nil_append, List.nil_append, List.filter_flatMap]
  clear hsorted hpos hcut habove hbelow
  induction log with
  | nil => rfl
  | cons e log ih =>
    rw [List.flatMap_cons, ih, F.filter_record]
    by_cases hle : F.pos e ≤ n
    · simp [upTo, hle]
    · simp [upTo, hle]

/-- The records up to `n` rebuild the fold of the entries up to `n`. -/
theorem rebuild_upTo (hsorted : Sorted F.pos log) (hpos : ∀ e ∈ log, 0 < F.pos e) (n : ℕ) :
    F.rebuild (F.seq ((upTo F.pos n log).foldl F.apply F.init))
      ((F.records (log.foldl F.apply F.init)).filter fun r => F.date r ≤ n) =
        (upTo F.pos n log).foldl F.apply F.init := by
  rw [F.filter_records hsorted hpos]
  exact F.restores _

theorem seq_upTo_le (log : List ε) (n : ℕ) :
    F.seq ((upTo F.pos n log).foldl F.apply F.init) ≤ n := by
  refine Fold.seq_foldl_le (by rw [F.start]; exact Nat.zero_le n) fun e he => ?_
  exact of_decide_eq_true (List.mem_filter.mp he).2

/-- A fold stops at the cut when an entry lies there. -/
theorem seq_upTo {e : ε} (he : e ∈ log) :
    F.seq ((upTo F.pos (F.pos e) log).foldl F.apply F.init) = F.pos e := by
  have hmem : e ∈ upTo F.pos (F.pos e) log := List.mem_filter.mpr ⟨he, by simp⟩
  have hle := (F.le_seq_foldl (upTo F.pos (F.pos e) log) F.init).2 e hmem
  have hge := F.seq_upTo_le log (F.pos e)
  omega

end Recorded

end Catchup

namespace Walgit

open Replay (upTo)

section Histories

variable [Text.CharTables]

/-- The forge state with the records it keeps. -/
def ForgeState.recorded : Catchup.Recorded ForgeState LogEntry ForgeRecord where
  toFold := ForgeState.follow
  records := ForgeState.records
  date := ForgeRecord.seq
  record e := if e.forge.isEmpty then [] else [⟨e.seq, e.createdAt, e.forge⟩]
  rebuild n rs := .fromHistory ⟨n, rs⟩
  initially := rfl
  grows s e h := by
    have hlt : ¬e.seq ≤ s.seq := not_le.mpr h
    simp only [ForgeState.follow, ForgeState.foldEntry, if_neg hlt]
    split_ifs
    · exact (List.append_nil _).symm
    · rw [ForgeState.applyRecord_records]
  dated e r hr := by
    split_ifs at hr
    · cases hr
    · rw [List.mem_singleton.mp hr]
      rfl
  restores es := (ForgeState.rebuilt_foldl es).2

/-- The account directory with the records it keeps. -/
def AccountsState.recorded : Catchup.Recorded AccountsState LogEntry AccountRecord where
  toFold := AccountsState.follow
  records := AccountsState.records
  date := AccountRecord.seq
  record e := if e.account.isEmpty then [] else [⟨e.seq, e.createdAt, e.account⟩]
  rebuild n rs := .fromHistory ⟨n, rs⟩
  initially := rfl
  grows s e h := by
    have hlt : ¬e.seq ≤ s.seq := not_le.mpr h
    simp only [AccountsState.follow, AccountsState.foldEntry, if_neg hlt]
    split_ifs
    · exact (List.append_nil _).symm
    · rfl
  dated e r hr := by
    split_ifs at hr
    · cases hr
    · rw [List.mem_singleton.mp hr]
      rfl
  restores es := (AccountsState.rebuilt_foldl es).2

/-- The forge state of the committed entries up to a sequence number. -/
def forgeAt (w : World) (n : ℕ) : ForgeState :=
  (upTo LogEntry.seq n (committedEntries w.gens)).foldl ForgeState.foldEntry .empty

/-- The account directory of the committed entries up to a sequence number. -/
def accountsAt (w : World) (n : ℕ) : AccountsState :=
  (upTo LogEntry.seq n (committedEntries w.gens)).foldl AccountsState.foldEntry .empty

variable {cfg : Config} {access : Option RepoAccess} {now : Timestamp} {writer : String}
  {w : World} {actions : List Action}

/-- The records a state holds at `m`, cut at `n`, rebuild the fold of the log up to `n`. -/
theorem Inv.rebuild_history {σ ρ : Type} (h : Inv cfg w) (F : Catchup.Recorded σ LogEntry ρ)
    (hpos : F.pos = LogEntry.seq) {m n : ℕ} (hn : n ≤ m) :
    F.rebuild (F.seq ((upTo F.pos n (committedEntries w.gens)).foldl F.apply F.init))
      ((F.records ((upTo F.pos m (committedEntries w.gens)).foldl F.apply F.init)).filter
        fun r => F.date r ≤ n) =
      (upTo F.pos n (committedEntries w.gens)).foldl F.apply F.init := by
  have hsorted : Replay.Sorted F.pos (committedEntries w.gens) := hpos ▸ h.chain.sorted
  have habove : ∀ e ∈ committedEntries w.gens, 0 < F.pos e := fun e he => by
    obtain ⟨g, gs, hgens, -⟩ := h.current
    rw [hpos]
    exact (hgens ▸ h.chain : Chain cfg (g :: gs)).entry_bounds (hgens ▸ he) |>.1
  have hcut : Replay.Sorted F.pos (upTo F.pos m (committedEntries w.gens)) :=
    hsorted.sublist List.filter_sublist
  have hrebuild := F.rebuild_upTo hcut (fun e he => habove e (List.mem_of_mem_filter he)) n
  rwa [Replay.upTo_upTo hn] at hrebuild

/-- The history of a state up to any earlier position rebuilds the fold of the committed entries
up to there, at that position; it is the fold itself wherever an entry was committed. -/
theorem histories_rebuild_folds
    (hrun : Runs.run (step cfg) (World.created (createdManifest access now writer)) actions =
      some w) :
    (∀ m n, n ≤ (forgeAt w m).seq →
      let rebuilt := ForgeState.fromHistory ((forgeAt w m).historyUpto n)
      rebuilt = { forgeAt w n with seq := n } ∧
      ((∃ e ∈ committedEntries w.gens, e.seq = n) → rebuilt = forgeAt w n)) ∧
    (∀ m n, n ≤ (accountsAt w m).seq →
      let rebuilt := AccountsState.fromHistory ((accountsAt w m).historyUpto n)
      rebuilt = { accountsAt w n with seq := n } ∧
      ((∃ e ∈ committedEntries w.gens, e.seq = n) → rebuilt = accountsAt w n)) := by
  have h := inv_run hrun
  refine ⟨fun m n hn => ?_, fun m n hn => ?_⟩
  · have hm : n ≤ m := hn.trans (ForgeState.recorded.seq_upTo_le (committedEntries w.gens) m)
    have hrebuild := h.rebuild_history ForgeState.recorded rfl hm
    have hcut : ForgeState.fromHistory ((forgeAt w m).historyUpto n) =
        { forgeAt w n with seq := n } :=
      congrArg (fun s : ForgeState => { s with seq := n }) hrebuild
    refine ⟨hcut, ?_⟩
    rintro ⟨e, he, rfl⟩
    have hseq : (forgeAt w e.seq).seq = e.seq := ForgeState.recorded.seq_upTo he
    rw [hcut]
    exact congrArg (fun k => { forgeAt w e.seq with seq := k }) hseq.symm
  · have hm : n ≤ m := hn.trans (AccountsState.recorded.seq_upTo_le (committedEntries w.gens) m)
    have hrebuild := h.rebuild_history AccountsState.recorded rfl hm
    have hcut : AccountsState.fromHistory ((accountsAt w m).historyUpto n) =
        { accountsAt w n with seq := n } :=
      congrArg (fun s : AccountsState => { s with seq := n }) hrebuild
    refine ⟨hcut, ?_⟩
    rintro ⟨e, he, rfl⟩
    have hseq : (accountsAt w e.seq).seq = e.seq := AccountsState.recorded.seq_upTo he
    rw [hcut]
    exact congrArg (fun k => { accountsAt w e.seq with seq := k }) hseq.symm

end Histories

section Burned

attribute [local instance] Text.asciiTables

theorem histories_rebuild_folds_race :
    ∃ w : World, (forgeAt w 2).seq = 2 ∧
      ForgeState.fromHistory ((forgeAt w 2).historyUpto 2) = forgeAt w 2 ∧
      AccountsState.fromHistory ((accountsAt w 2).historyUpto 1) =
        { accountsAt w 1 with seq := 1 } := by
  have hrun : ((Runs.run (step ⟨3, List.length⟩)
      (World.created (createdManifest none ⟨1, 0⟩ "w")) race).map fun w =>
        ((committedEntries w.gens).map LogEntry.seq, (forgeAt w 2).seq, (accountsAt w 2).seq)) =
      some ([2], 2, 2) := by decide
  obtain ⟨w, hw, heq⟩ := Option.map_eq_some_iff.mp hrun
  simp only [Prod.mk.injEq] at heq
  obtain ⟨hseqs, hforge, haccounts⟩ := heq
  have hmem : ∃ e ∈ committedEntries w.gens, e.seq = 2 :=
    List.mem_map.mp (hseqs ▸ List.mem_cons_self)
  obtain ⟨hforges, hdirectories⟩ := histories_rebuild_folds hw
  exact ⟨w, hforge, (hforges 2 2 hforge.ge).2 hmem, (hdirectories 2 1 (by omega)).1⟩

/-- The first sequence number was burned: a state rebuilt at it says it is there, and the fold of
the entries up to it has not moved. -/
theorem histories_rebuild_folds_burned :
    ∃ w, Runs.run (step ⟨3, List.length⟩) (World.created (createdManifest none ⟨1, 0⟩ "w")) race =
        some w ∧ 1 ≤ (forgeAt w 2).seq ∧ 1 ≤ (accountsAt w 2).seq ∧
      ForgeState.fromHistory ((forgeAt w 2).historyUpto 1) ≠ forgeAt w 1 ∧
      AccountsState.fromHistory ((accountsAt w 2).historyUpto 1) ≠ accountsAt w 1 := by
  have hrun : ((Runs.run (step ⟨3, List.length⟩)
      (World.created (createdManifest none ⟨1, 0⟩ "w")) race).map fun w =>
        decide (1 ≤ (forgeAt w 2).seq ∧ 1 ≤ (accountsAt w 2).seq ∧
          ForgeState.fromHistory ((forgeAt w 2).historyUpto 1) ≠ forgeAt w 1 ∧
          AccountsState.fromHistory ((accountsAt w 2).historyUpto 1) ≠ accountsAt w 1)) =
      some true := by decide
  obtain ⟨w, hw, heq⟩ := Option.map_eq_some_iff.mp hrun
  exact ⟨w, hw, of_decide_eq_true heq⟩

end Burned

end Walgit
