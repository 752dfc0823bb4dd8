import Walgit.Attempts
import Walgit.Machines
import Walgit.Replay

/-!
# The committed log

The entries of all generations in order: sorted, cut exactly at the heads of the manifests,
and what `read_log` returns from the segments a manifest lists.
-/
namespace Walgit

open Replay (upTo after between)

section Origins

variable {cfg : Config}

theorem exists_suffix {l : List Generation} {g : Generation} (hg : g ∈ l) :
    ∃ gens, (g :: gens) <:+ l := by
  obtain ⟨pre, suf, rfl⟩ := List.append_of_mem hg
  exact ⟨suf, pre, rfl⟩

/-- The committed claims, oldest first. -/
def committedOrigins (gens : List Generation) : List Origin :=
  gens.reverse.filterMap Generation.origin

theorem committedEntries_eq (gens : List Generation) :
    committedEntries gens = (committedOrigins gens).flatMap fun o => o.slot.bytes := by
  induction gens with
  | nil => rfl
  | cons g gens ih =>
    rw [committedEntries, ih, committedOrigins, committedOrigins, List.reverse_cons,
      List.filterMap_append, List.flatMap_append]
    cases h : g.origin <;> simp [h]

theorem committedSegments_eq (gens : List Generation) :
    committedSegments cfg gens = (committedOrigins gens).map fun o => o.slot.ref cfg := by
  induction gens with
  | nil => rfl
  | cons g gens ih =>
    rw [committedSegments, ih, committedOrigins, committedOrigins, List.reverse_cons,
      List.filterMap_append, List.map_append]
    cases h : g.origin <;> simp [h]

theorem mem_committedOrigins {gens : List Generation} {o : Origin} :
    o ∈ committedOrigins gens ↔ ∃ g ∈ gens, g.origin = some o := by
  simp [committedOrigins]

/-- Elements that contribute nothing may be left out. -/
theorem filter_flatMap_of {α β : Type} {p : α → Bool} {f : α → List β} {l : List α}
    (h : ∀ a ∈ l, p a = false → f a = []) : (l.filter p).flatMap f = l.flatMap f := by
  induction l with
  | nil => rfl
  | cons a l ih =>
    have hrest := ih fun b hb => h b (List.mem_cons_of_mem _ hb)
    by_cases hp : p a = true
    · rw [List.filter_cons_of_pos hp, List.flatMap_cons, List.flatMap_cons, hrest]
    · rw [List.filter_cons_of_neg hp, hrest, List.flatMap_cons,
        h a List.mem_cons_self (by simpa using hp), List.nil_append]

end Origins

section Log

variable [Text.CharTables] {cfg : Config}

theorem Chain.entry_bounds {g : Generation} {gens : List Generation} (h : Chain cfg (g :: gens))
    {e : LogEntry} (he : e ∈ committedEntries (g :: gens)) :
    0 < e.seq ∧ e.seq ≤ g.manifest.headSeq := by
  obtain ⟨s, hs, hfirst, hlast⟩ := h.logSpec.entries e he
  have hproper := h.logSpec.proper s hs
  omega

/-- What a write adds to the log lies above the head before it. -/
theorem Chain.new_entries {g g' : Generation} {gens : List Generation}
    (h : Chain cfg (g' :: g :: gens)) {e : LogEntry}
    (he : e ∈ (g'.origin.map fun o => o.slot.bytes).getD []) : g.manifest.headSeq < e.seq := by
  cases h with
  | append older o now m version basis wrote burned edit newer =>
    exact burned.1.trans_le (wrote.mem_seq he).1
  | rewrite older job policy writer now m version edit folded newer => cases he

theorem Chain.sorted {gens : List Generation} (h : Chain cfg gens) :
    Replay.Sorted LogEntry.seq (committedEntries gens) := by
  induction h with
  | created access now writer version => exact List.Pairwise.nil
  | append older o now m version basis wrote burned edit newer ih =>
    refine List.pairwise_append.mpr ⟨ih, ?_, fun e he e' he' => ?_⟩
    · have hseqs : (o.slot.bytes.map LogEntry.seq).Pairwise (· < ·) := by
        rw [wrote.seqs]
        exact List.pairwise_lt_range'
      exact List.pairwise_map.mp hseqs
    · have hold := (older.entry_bounds he).2
      have hnew := (wrote.mem_seq he').1
      have := burned.1
      omega
  | rewrite older job policy writer now m version edit folded newer ih =>
    rw [committedEntries]
    simpa using ih

/-- The log of an older manifest is the newest log up to its head. -/
theorem Chain.upTo_head {l : List Generation} (h : Chain cfg l) {g : Generation}
    {gens : List Generation} (hs : (g :: gens) <:+ l) :
    upTo LogEntry.seq g.manifest.headSeq (committedEntries l) = committedEntries (g :: gens) := by
  induction l with
  | nil => simp at hs
  | cons g' l ih =>
    rcases List.suffix_cons_iff.mp hs with heq | hs
    · rw [← heq] at h ⊢
      exact Replay.upTo_eq_self fun e he => (h.entry_bounds he).2
    · cases l with
      | nil => simp at hs
      | cons g'' l =>
        have hle : g.manifest.headSeq ≤ g''.manifest.headSeq :=
          h.older.1.logSpec.heads g (hs.subset List.mem_cons_self)
        rw [committedEntries, Replay.upTo_append fun e he => hle.trans_lt (h.new_entries he)]
        exact ih h.older.1 hs

/-- A reader gets the committed entries of its range above the checkpoint of the manifest it
holds; what was folded into the checkpoint is left out without an error. -/
theorem Inv.readLog_above {w : World} (h : Inv cfg w) {g : Generation} (hg : g ∈ w.gens)
    (a : ℕ) {b : ℕ} (hb : b ≤ g.manifest.headSeq) :
    w.readLog g.manifest a b =
      some (between LogEntry.seq (max a g.manifest.checkpointSeq) b (committedEntries w.gens)) := by
  obtain ⟨gens, hsuffix⟩ := exists_suffix hg
  have hchain := h.chain.suffix hsuffix
  have hlog := hchain.logSpec
  set cp := g.manifest.checkpointSeq with hcp
  set origins := committedOrigins (g :: gens) with horigins
  have hmem : ∀ o ∈ origins, o.Wrote ∧ Committed w o := by
    intro o ho
    obtain ⟨g', hg', ho'⟩ := mem_committedOrigins.mp ho
    exact ⟨(hchain.ref_mem hg' ho').1, g', hsuffix.subset hg', ho'⟩
  -- The listed segments that reach into the range.
  set inRange : LogSegmentRef → Bool := fun s => max a cp < s.lastSeq && s.firstSeq ≤ b
    with hinRange
  have hlisted : g.manifest.logSegments.filter (fun s => a < s.lastSeq && s.firstSeq ≤ b) =
      (origins.filter fun o => inRange (o.slot.ref cfg)).map fun o => o.slot.ref cfg := by
    rw [hlog.segments, committedSegments_eq, List.filter_filter, List.filter_map]
    congr 1
    refine List.filter_congr fun o _ => ?_
    simp only [Function.comp_apply, hinRange]
    rw [← Bool.decide_and, ← Bool.decide_and, ← Bool.decide_and, decide_eq_decide]
    omega
  have hfetched : (g.manifest.logSegments.filter fun s => a < s.lastSeq && s.firstSeq ≤ b).mapM
      w.fetchSegment =
      some ((origins.filter fun o => inRange (o.slot.ref cfg)).map fun o => o.slot.bytes) := by
    rw [hlisted, List.mapM_map]
    refine Checks.mapM_eq_some_map fun o ho => ?_
    have hstored := h.stored o (hmem o (List.mem_filter.mp ho).1).2
    have hkey : (o.slot.ref cfg).key = .log o.slot.firstSeq := rfl
    simp only [Function.comp_apply, World.fetchSegment, hkey, hstored]
  -- Nothing that is listed starts below the checkpoint.
  have habove : ((origins.filter fun o => inRange (o.slot.ref cfg)).map
      fun o => o.slot.bytes).flatten.filter (fun e => a < e.seq && e.seq ≤ b) =
      ((origins.filter fun o => inRange (o.slot.ref cfg)).map
        fun o => o.slot.bytes).flatten.filter (fun e => max a cp < e.seq && e.seq ≤ b) := by
    refine List.filter_congr fun e he => ?_
    obtain ⟨bytes, hbytes, heb⟩ := List.mem_flatten.mp he
    obtain ⟨o, ho, rfl⟩ := List.mem_map.mp hbytes
    have hfirst := (hmem o (List.mem_filter.mp ho).1).1.mem_seq heb
    have hsegment : o.slot.ref cfg ∈ g.manifest.logSegments := by
      have himage := hlisted ▸ List.mem_map_of_mem (f := fun o : Origin => o.slot.ref cfg) ho
      exact (List.mem_filter.mp himage).1
    have hlt : cp < o.slot.firstSeq := hlog.listed_above hsegment
    rw [← Bool.decide_and, ← Bool.decide_and, decide_eq_decide]
    omega
  have hentries : ((origins.filter fun o => inRange (o.slot.ref cfg)).map
      fun o => o.slot.bytes).flatten.filter (fun e => max a cp < e.seq && e.seq ≤ b) =
      between LogEntry.seq (max a cp) b (committedEntries (g :: gens)) := by
    rw [committedEntries_eq, between, List.filter_flatMap, ← List.flatMap_def, List.filter_flatMap]
    refine filter_flatMap_of fun o ho hout => List.filter_eq_nil_iff.mpr fun e he => ?_
    have hseq := (hmem o ho).1.mem_seq he
    simp only [hinRange, Bool.and_eq_false_iff, decide_eq_false_iff_not, not_lt, not_le,
      Slot.ref, segmentRef] at hout
    simp only [Bool.and_eq_true, decide_eq_true_eq, not_and]
    omega
  have hcut : between LogEntry.seq (max a cp) b (committedEntries (g :: gens)) =
      between LogEntry.seq (max a cp) b (committedEntries w.gens) := by
    rw [← h.chain.upTo_head hsuffix, between, between, upTo, List.filter_filter]
    refine List.filter_congr fun e _ => ?_
    rw [← Bool.decide_and, ← Bool.decide_and, decide_eq_decide]
    omega
  have hsorted : (between LogEntry.seq (max a cp) b (committedEntries w.gens)).Pairwise
      fun e f => e.seq ≤ f.seq :=
    (h.chain.sorted.sublist List.filter_sublist).imp Nat.le_of_lt
  unfold World.readLog
  simp only [Option.bind_eq_bind]
  rw [hfetched, Option.bind_some, habove, hentries, hcut, sortByKey_eq_self hsorted]
  rfl

/-- A reader gets the committed entries of its range, whatever manifest it holds, as long as
the range lies between that manifest's checkpoint and head. -/
theorem Inv.readLog {w : World} (h : Inv cfg w) {g : Generation} (hg : g ∈ w.gens) {a b : ℕ}
    (ha : g.manifest.checkpointSeq ≤ a) (hb : b ≤ g.manifest.headSeq) :
    w.readLog g.manifest a b = some (between LogEntry.seq a b (committedEntries w.gens)) := by
  rw [h.readLog_above hg a hb, max_eq_left ha]

/-- The entries between the basis of a committed claim and its end are its own. -/
theorem Chain.span {gens : List Generation} (h : Chain cfg gens) {g : Generation}
    (hg : g ∈ gens) {o : Origin} (ho : g.origin = some o) {a : ℕ}
    (hbasis : o.attempt.basis.manifest.headSeq ≤ a) (ha : a < o.slot.firstSeq) :
    between LogEntry.seq a o.slot.lastSeq (committedEntries gens) = o.slot.bytes := by
  obtain ⟨older, hsuffix⟩ := exists_suffix hg
  have hcommit := h.suffix hsuffix
  have hwrote := (h.ref_mem hg ho).1
  cases hcommit with
  | created access now writer version => cases ho
  | append hold p now m version basis wrote burned edit newer =>
    rename_i g₀ gens₀
    cases ho
    have hhead : m.headSeq = o.slot.lastSeq := by
      have hlog := Job.manifest_logPart edit (fun hb => wrote.lastSeq_of_not_batch hb)
        (basis ▸ hold.logSpec.sorted_append burned.1)
      exact congrArg LogPart.headSeq hlog
    have hcut := h.upTo_head hsuffix
    simp only [hhead] at hcut
    have hbetween : between LogEntry.seq a o.slot.lastSeq (committedEntries gens) =
        after LogEntry.seq a (upTo LogEntry.seq o.slot.lastSeq (committedEntries gens)) := by
      rw [after, upTo, List.filter_filter]
      rfl
    rw [hbetween, hcut, committedEntries, after, List.filter_append]
    have hbefore : (committedEntries (g₀ :: gens₀)).filter (fun e => a < e.seq) = [] :=
      Replay.after_eq_nil fun e he => (hold.entry_bounds he).2.trans (basis ▸ hbasis)
    rw [hbefore, List.nil_append]
    exact List.filter_eq_self.mpr fun e he => by
      simpa using ha.trans_le (hwrote.mem_seq he).1
  | rewrite hold job policy writer now m version edit folded newer => cases ho

end Log

end Walgit
