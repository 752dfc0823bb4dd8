import Walgit.ManifestWrites

/-!
# The chain of manifests

Committed manifests form a chain: each is one writer's edit of the one before it.
What holds of the log part of every manifest is proved here, from the edits alone.
-/
namespace Walgit

/-- A log segment written by a publisher and awaiting its manifest swap. -/
structure Slot where
  task : ℕ
  version : ℕ
  firstSeq : ℕ
  bytes : List LogEntry
  nonce : String
  /-- Orphan segments whose sequence numbers were burned to get here. -/
  burned : List (ℕ × ℕ)
  deriving DecidableEq

/-- Host limits the protocol depends on, and the length of an encoded segment. -/
structure Config where
  casMaxRetries : ℕ
  encodedLen : List LogEntry → ℕ

namespace Slot

def lastSeq (σ : Slot) : ℕ := (σ.bytes.getLast?.map LogEntry.seq).getD σ.firstSeq

def ref (cfg : Config) (σ : Slot) : LogSegmentRef :=
  segmentRef σ.firstSeq σ.lastSeq (cfg.encodedLen σ.bytes)

end Slot

structure Origin where
  job : Job
  attempt : Attempt
  slot : Slot
  deriving DecidableEq

/-- One successful manifest write; `origin` is the slot it committed, if it had one. -/
structure Generation where
  manifest : Manifest
  version : ℕ
  origin : Option Origin
  deriving DecidableEq

def publicationNonce : String := "walgit.publication_nonce"

/-- A fresh nonce in the first entry makes every written segment unique. -/
def withNonce (uuid : String) : List LogEntry → List LogEntry
  | [] => []
  | e :: es => { e with metadata := e.metadata.insert publicationNonce uuid } :: es

/-- The manifest a repository is created with. -/
def createdManifest (access : Option RepoAccess) (now : Timestamp) (writer : String) : Manifest :=
  { updatedAt := some now, writer := writer, revision := 1, access := access }

theorem withNonce_seqs (uuid : String) (es : List LogEntry) :
    (withNonce uuid es).map LogEntry.seq = es.map LogEntry.seq := by
  cases es <;> rfl

@[simp] theorem withNonce_length (uuid : String) (es : List LogEntry) :
    (withNonce uuid es).length = es.length := by
  cases es <;> rfl

/-- The nonce touches nothing but metadata. -/
theorem withNonce_getElem?_map (uuid : String) (es : List LogEntry) (k : ℕ) :
    (withNonce uuid es)[k]? = es[k]?.map fun e =>
      if k = 0 then { e with metadata := e.metadata.insert publicationNonce uuid } else e := by
  cases es with
  | nil => simp [withNonce]
  | cons x es => cases k <;> simp [withNonce]

theorem withNonce_getElem? (uuid : String) {es : List LogEntry} {k : ℕ} {e : LogEntry}
    (h : es[k]? = some e) :
    ∃ e', (withNonce uuid es)[k]? = some e' ∧ e' = { e with metadata := e'.metadata } := by
  rw [withNonce_getElem?_map, h]
  refine ⟨_, rfl, ?_⟩
  split_ifs <;> rfl

theorem foldRefs_withNonce (s : RefState) (uuid : String) (es : List LogEntry) :
    foldRefs s (withNonce uuid es) = foldRefs s es := by
  cases es <;> rfl

theorem mem_withNonce {uuid : String} {es : List LogEntry} {e : LogEntry}
    (h : e ∈ withNonce uuid es) : ∃ e₀ ∈ es, e = { e₀ with metadata := e.metadata } := by
  obtain ⟨k, hk⟩ := List.mem_iff_getElem?.mp h
  rw [withNonce_getElem?_map, Option.map_eq_some_iff] at hk
  obtain ⟨e₀, he₀, rfl⟩ := hk
  refine ⟨e₀, List.mem_of_getElem? he₀, ?_⟩
  split_ifs <;> rfl

/-- Equal segments carry equal nonces. -/
theorem withNonce_injective {u v : String} {es fs : List LogEntry} (hne : es ≠ [])
    (h : withNonce u es = withNonce v fs) : u = v := by
  cases es with
  | nil => exact absurd rfl hne
  | cons e es =>
    cases fs with
    | nil => cases h
    | cons f fs =>
      have hmeta := congrArg (fun l : List LogEntry =>
        l.head?.bind fun x => x.metadata.find? publicationNonce) h
      simpa [withNonce] using hmeta

/-- The sequence numbers from the head up to a slot were all burned. -/
def BurnedTo (head seq : ℕ) (burned : List (ℕ × ℕ)) : Prop :=
  head < seq ∧ burned.map Prod.fst = List.range' (head + 1) (seq - (head + 1))

theorem BurnedTo.mem {head seq : ℕ} {burned : List (ℕ × ℕ)} (h : BurnedTo head seq burned)
    {b : ℕ × ℕ} (hb : b ∈ burned) : head < b.1 ∧ b.1 < seq := by
  have hmem : b.1 ∈ burned.map Prod.fst := List.mem_map_of_mem hb
  rw [h.2, List.mem_range'_1] at hmem
  have := h.1
  omega

theorem BurnedTo.snoc {head seq v : ℕ} {burned : List (ℕ × ℕ)} (h : BurnedTo head seq burned) :
    BurnedTo head (seq + 1) (burned ++ [(seq, v)]) := by
  obtain ⟨hlt, heq⟩ := h
  refine ⟨by omega, ?_⟩
  rw [List.map_append, heq, show seq + 1 - (head + 1) = seq - (head + 1) + 1 by omega,
    List.range'_concat]
  simp only [List.map_cons, List.map_nil, List.append_cancel_left_eq, List.cons.injEq, and_true]
  omega

/-- Committed entries, in order; generations are listed newest first. -/
def committedEntries : List Generation → List LogEntry
  | [] => []
  | g :: gens => committedEntries gens ++ (g.origin.map fun o => o.slot.bytes).getD []

theorem mem_committedEntries {gens : List Generation} {g : Generation} (hg : g ∈ gens)
    {o : Origin} (ho : g.origin = some o) {e : LogEntry} (he : e ∈ o.slot.bytes) :
    e ∈ committedEntries gens := by
  induction gens with
  | nil => cases hg
  | cons g' gens ih =>
    rw [committedEntries, List.mem_append]
    rcases List.mem_cons.mp hg with rfl | hg
    · exact Or.inr (by simpa [ho] using he)
    · exact Or.inl (ih hg)

/-- Every segment ever committed, in order. -/
def committedSegments (cfg : Config) : List Generation → List LogSegmentRef
  | [] => []
  | g :: gens => committedSegments cfg gens ++ (g.origin.map fun o => o.slot.ref cfg).toList

theorem committedSegments_mem {cfg : Config} {gens : List Generation} {s : LogSegmentRef}
    (hs : s ∈ committedSegments cfg gens) :
    ∃ g ∈ gens, ∃ o, g.origin = some o ∧ o.slot.ref cfg = s := by
  induction gens with
  | nil => simp [committedSegments] at hs
  | cons g gens ih =>
    rw [committedSegments, List.mem_append] at hs
    rcases hs with hs | hs
    · obtain ⟨g', hg', ho⟩ := ih hs
      exact ⟨g', List.mem_cons_of_mem _ hg', ho⟩
    · rw [Option.mem_toList, Option.map_eq_some_iff] at hs
      obtain ⟨o, ho, heq⟩ := hs
      exact ⟨g, List.mem_cons_self, o, ho, heq⟩

section Chain

variable [Text.CharTables] (cfg : Config)

/-- The slot holds what the job writes at its sequence number. -/
def Origin.Wrote (o : Origin) : Prop :=
  ∃ clock es, o.job.entries o.attempt clock o.slot.firstSeq = .ok es ∧ es ≠ [] ∧
    o.slot.bytes = withNonce o.slot.nonce es

/-- Generations, newest first, each an edit of the next. -/
inductive Chain : List Generation → Prop
  | created (access : Option RepoAccess) (now : Timestamp) (writer : String) (version : ℕ) :
      Chain [⟨createdManifest access now writer, version, none⟩]
  | append {g : Generation} {gens : List Generation} (older : Chain (g :: gens)) (o : Origin)
      (now : Timestamp) (m : Manifest) (version : ℕ)
      (basis : o.attempt.basis.manifest = g.manifest) (wrote : o.Wrote)
      (burned : BurnedTo g.manifest.headSeq o.slot.firstSeq o.slot.burned)
      (edit : o.job.manifest o.attempt now (o.slot.ref cfg) = .ok m)
      (newer : g.version < version) : Chain (⟨m, version, some o⟩ :: g :: gens)
  | rewrite {g : Generation} {gens : List Generation} (older : Chain (g :: gens)) (job : MetaJob)
      (policy : PackPolicy) (writer : String) (now : Timestamp) (m : Manifest) (version : ℕ)
      (edit : job.manifest g.manifest policy writer now = some m)
      (folded : ∀ view cp, job = .checkpoint view cp →
        cp.seq = view.headSeq ∧ ∃ g' ∈ g :: gens, g'.manifest = view)
      (newer : g.version < version) : Chain (⟨m, version, none⟩ :: g :: gens)

end Chain

namespace Origin

variable [Text.CharTables]

theorem Wrote.bytes_ne_nil {o : Origin} (h : o.Wrote) : o.slot.bytes ≠ [] := by
  obtain ⟨clock, es, -, hne, hbytes⟩ := h
  rw [hbytes]
  intro hnil
  have := congrArg List.length hnil
  simp [hne] at this

theorem Wrote.seqs {o : Origin} (h : o.Wrote) :
    o.slot.bytes.map LogEntry.seq = List.range' o.slot.firstSeq o.slot.bytes.length := by
  obtain ⟨clock, es, hes, -, hbytes⟩ := h
  rw [hbytes, withNonce_seqs, withNonce_length, Job.entries_seqs hes]

theorem Wrote.lastSeq_eq {o : Origin} (h : o.Wrote) :
    o.slot.lastSeq + 1 = o.slot.firstSeq + o.slot.bytes.length := by
  have hpos : 0 < o.slot.bytes.length := List.length_pos_iff.mpr h.bytes_ne_nil
  have hlast : (o.slot.bytes.map LogEntry.seq).getLast? =
      some (o.slot.firstSeq + (o.slot.bytes.length - 1)) := by
    rw [h.seqs, List.getLast?_range']
    simp only [Nat.pos_iff_ne_zero.mp hpos, if_false, Option.some.injEq]
    omega
  rw [List.getLast?_map] at hlast
  rw [Slot.lastSeq, hlast]
  simp only [Option.getD_some]
  omega

theorem Wrote.first_le_last {o : Origin} (h : o.Wrote) : o.slot.firstSeq ≤ o.slot.lastSeq := by
  have hpos : 0 < o.slot.bytes.length := List.length_pos_iff.mpr h.bytes_ne_nil
  have := h.lastSeq_eq
  omega

theorem Wrote.mem_seq {o : Origin} (h : o.Wrote) {e : LogEntry} (he : e ∈ o.slot.bytes) :
    o.slot.firstSeq ≤ e.seq ∧ e.seq ≤ o.slot.lastSeq := by
  have hmem : e.seq ∈ o.slot.bytes.map LogEntry.seq := List.mem_map_of_mem he
  rw [h.seqs, List.mem_range'_1] at hmem
  have := h.lastSeq_eq
  omega

theorem Wrote.lastSeq_of_not_batch {o : Origin} (h : o.Wrote) (hb : o.job.isBatch = false) :
    o.slot.lastSeq = o.slot.firstSeq := by
  have hlast := h.lastSeq_eq
  obtain ⟨clock, es, hes, -, hbytes⟩ := h
  have hone := Job.entries_length_of_not_batch hes hb
  rw [hbytes, withNonce_length, hone] at hlast
  omega

end Origin

/-- What the log part of the newest manifest looks like, in terms of everything committed. -/
structure LogSpec (cfg : Config) (g : Generation) (gens : List Generation) : Prop where
  /-- The listed segments are the committed ones above the checkpoint. -/
  segments : g.manifest.logSegments =
    (committedSegments cfg gens).filter fun s => g.manifest.checkpointSeq < s.lastSeq
  ordered : (committedSegments cfg gens).Pairwise fun s t => s.lastSeq < t.firstSeq
  proper : ∀ s ∈ committedSegments cfg gens,
    0 < s.firstSeq ∧ s.firstSeq ≤ s.lastSeq ∧ s.lastSeq ≤ g.manifest.headSeq
  heads : ∀ h ∈ gens, h.manifest.headSeq ≤ g.manifest.headSeq
  /-- No segment straddles the head of any manifest. -/
  boundary : ∀ h ∈ gens, ∀ s ∈ committedSegments cfg gens,
    s.lastSeq ≤ h.manifest.headSeq ∨ h.manifest.headSeq < s.firstSeq
  checkpoint : g.manifest.checkpointSeq = 0 ∨
    ∃ h ∈ gens, h.manifest.headSeq = g.manifest.checkpointSeq
  minSeq : g.manifest.minSeq =
    if g.manifest.checkpoint.isSome then g.manifest.checkpointSeq + 1 else 0
  entries : ∀ e ∈ committedEntries gens, ∃ s ∈ committedSegments cfg gens,
    s.firstSeq ≤ e.seq ∧ e.seq ≤ s.lastSeq
  /-- Every sequence number up to the head is in a segment or was burned on the way to one. -/
  covered : ∀ n, 0 < n → n ≤ g.manifest.headSeq →
    (∃ s ∈ committedSegments cfg gens, s.firstSeq ≤ n ∧ n ≤ s.lastSeq) ∨
    ∃ h ∈ gens, ∃ o ∈ h.origin, n ∈ o.slot.burned.map Prod.fst

namespace LogSpec

variable {cfg : Config} {g : Generation} {gens : List Generation}

theorem checkpoint_le_head (h : LogSpec cfg g gens) :
    g.manifest.checkpointSeq ≤ g.manifest.headSeq := by
  rcases h.checkpoint with h0 | ⟨h', hmem, heq⟩
  · omega
  · rw [← heq]
    exact h.heads h' hmem

theorem listed_mem (h : LogSpec cfg g gens) {s : LogSegmentRef} (hs : s ∈ g.manifest.logSegments) :
    s ∈ committedSegments cfg gens ∧ g.manifest.checkpointSeq < s.lastSeq := by
  rw [h.segments, List.mem_filter] at hs
  exact ⟨hs.1, by simpa using hs.2⟩

/-- A listed segment starts above the checkpoint, not only ends above it. -/
theorem listed_above (h : LogSpec cfg g gens) {s : LogSegmentRef}
    (hs : s ∈ g.manifest.logSegments) : g.manifest.checkpointSeq < s.firstSeq := by
  obtain ⟨hmem, hlast⟩ := h.listed_mem hs
  rcases h.checkpoint with h0 | ⟨h', hmem', heq⟩
  · rw [h0]
    exact (h.proper s hmem).1
  · rcases h.boundary h' hmem' s hmem with hle | hlt <;> omega

/-- A sequence number is in at most one committed segment. -/
theorem committed_unique (h : LogSpec cfg g gens) {s t : LogSegmentRef} {n : ℕ}
    (hs : s ∈ committedSegments cfg gens) (ht : t ∈ committedSegments cfg gens)
    (hsn : s.firstSeq ≤ n ∧ n ≤ s.lastSeq) (htn : t.firstSeq ≤ n ∧ n ≤ t.lastSeq) : s = t := by
  have hdisjoint : (committedSegments cfg gens).Pairwise fun s t =>
      (s.firstSeq ≤ n ∧ n ≤ s.lastSeq) → (t.firstSeq ≤ n ∧ n ≤ t.lastSeq) → s = t := by
    refine h.ordered.imp fun hst hs ht => ?_
    omega
  refine List.Pairwise.forall_of_forall_of_flip (fun _ _ _ _ => rfl) hdisjoint ?_ hs ht hsn htn
  exact hdisjoint.imp fun hst hs ht => (hst ht hs).symm

/-- A number above the checkpoint is in at most one listed segment. -/
theorem listed_unique (h : LogSpec cfg g gens) {s t : LogSegmentRef} {n : ℕ}
    (hs : s ∈ g.manifest.logSegments) (ht : t ∈ g.manifest.logSegments)
    (hsn : s.firstSeq ≤ n ∧ n ≤ s.lastSeq) (htn : t.firstSeq ≤ n ∧ n ≤ t.lastSeq) : s = t :=
  h.committed_unique (h.listed_mem hs).1 (h.listed_mem ht).1 hsn htn

/-- A committed segment reaching above the checkpoint is listed. -/
theorem mem_listed (h : LogSpec cfg g gens) {s : LogSegmentRef} {n : ℕ}
    (hs : s ∈ committedSegments cfg gens) (hn : g.manifest.checkpointSeq < n)
    (hle : n ≤ s.lastSeq) : s ∈ g.manifest.logSegments := by
  rw [h.segments, List.mem_filter]
  exact ⟨hs, decide_eq_true (hn.trans_le hle)⟩

/-- Appending a fresh segment at the end keeps the list sorted. -/
theorem sorted_append (h : LogSpec cfg g gens) {seg : LogSegmentRef}
    (hseg : g.manifest.headSeq < seg.firstSeq) :
    (g.manifest.logSegments ++ [seg]).Pairwise fun s t => s.firstSeq ≤ t.firstSeq := by
  rw [h.segments, List.pairwise_append]
  refine ⟨?_, List.pairwise_singleton _ _, ?_⟩
  · have hproper := h.proper
    refine (h.ordered.sublist List.filter_sublist).imp_of_mem ?_
    intro s t hs _ hst
    have := hproper s (List.mem_filter.mp hs).1
    omega
  · intro s hs t ht
    have hp := h.proper s (List.mem_filter.mp hs).1
    rw [List.mem_singleton.mp ht]
    omega

theorem created (access : Option RepoAccess) (now : Timestamp) (writer : String)
    (version : ℕ) : LogSpec cfg ⟨createdManifest access now writer, version, none⟩
      [⟨createdManifest access now writer, version, none⟩] where
  segments := rfl
  ordered := List.Pairwise.nil
  proper := by simp [committedSegments]
  heads := by simp
  boundary := by simp [committedSegments]
  checkpoint := Or.inl rfl
  minSeq := rfl
  entries := by simp [committedEntries]
  covered := by
    intro n hpos hle
    simp [createdManifest] at hle
    omega

theorem rewrite (h : LogSpec cfg g (g :: gens)) {job : MetaJob} {policy : PackPolicy}
    {writer : String} {now : Timestamp} {m : Manifest} {version : ℕ}
    (edit : job.manifest g.manifest policy writer now = some m)
    (folded : ∀ view cp, job = .checkpoint view cp →
      cp.seq = view.headSeq ∧ ∃ g' ∈ g :: gens, g'.manifest = view) :
    LogSpec cfg ⟨m, version, none⟩ (⟨m, version, none⟩ :: g :: gens) := by
  have hsegs : committedSegments cfg (⟨m, version, none⟩ :: g :: gens) =
      committedSegments cfg (g :: gens) := by
    rw [committedSegments]
    simp
  have hentries : committedEntries (⟨m, version, none⟩ :: g :: gens) =
      committedEntries (g :: gens) := by
    rw [committedEntries]
    simp
  -- Whichever metadata write it is, the head stays and the checkpoint moves to a known head.
  obtain ⟨hhead, hmin, hcheck, hlisted⟩ : m.headSeq = g.manifest.headSeq ∧
      (m.minSeq = if m.checkpoint.isSome then m.checkpointSeq + 1 else 0) ∧
      (m.checkpointSeq = 0 ∨ ∃ h' ∈ g :: gens, h'.manifest.headSeq = m.checkpointSeq) ∧
      m.logSegments = (committedSegments cfg (g :: gens)).filter
        fun s => m.checkpointSeq < s.lastSeq := by
    rcases MetaJob.manifest_logPart edit with hlog | ⟨view, cp, hjob, hgrow, hlog⟩
    · simp only [Manifest.logPart, LogPart.mk.injEq] at hlog
      obtain ⟨hhead, hmin, -, hcp, hseg⟩ := hlog
      have hcpseq : m.checkpointSeq = g.manifest.checkpointSeq := by
        simp only [Manifest.checkpointSeq, hcp]
      rw [hmin, hcp, hcpseq, hseg]
      exact ⟨hhead, h.minSeq, h.checkpoint, h.segments⟩
    · simp only [Manifest.logPart, LogPart.mk.injEq] at hlog
      obtain ⟨hhead, hmin, -, hcp, hseg⟩ := hlog
      have hcpseq : m.checkpointSeq = cp.seq := by
        simp [Manifest.checkpointSeq, hcp]
      obtain ⟨hseq, h', hmem, rfl⟩ := folded view cp hjob
      refine ⟨hhead, by simp [hmin, hcp, hcpseq], Or.inr ⟨h', hmem, ?_⟩, ?_⟩
      · rw [hcpseq, hseq]
      · rw [hseg, hcpseq, h.segments, List.filter_filter]
        refine List.filter_congr fun s _ => ?_
        have hle : g.manifest.checkpointSeq ≤ cp.seq := by
          cases hsome : g.manifest.checkpoint with
          | none => simp [Manifest.checkpointSeq, hsome]
          | some c => exact (hgrow (by simp [hsome])).le
        by_cases hlt : cp.seq < s.lastSeq
        · simp [hlt, lt_of_le_of_lt hle hlt]
        · simp [hlt]
  refine ⟨?_, ?_, ?_, ?_, ?_, ?_, ?_, ?_, ?_⟩
  · rw [hsegs]
    exact hlisted
  · rw [hsegs]
    exact h.ordered
  · rw [hsegs]
    simp only [hhead]
    exact h.proper
  · intro h' hmem
    simp only [hhead]
    rcases List.mem_cons.mp hmem with rfl | hmem
    · exact hhead.le
    · exact h.heads h' hmem
  · intro h' hmem s hs
    rw [hsegs] at hs
    rcases List.mem_cons.mp hmem with rfl | hmem
    · exact Or.inl (by simpa only [hhead] using (h.proper s hs).2.2)
    · exact h.boundary h' hmem s hs
  · rcases hcheck with h0 | ⟨h', hmem, heq⟩
    · exact Or.inl h0
    · exact Or.inr ⟨h', List.mem_cons_of_mem _ hmem, heq⟩
  · exact hmin
  · rw [hsegs, hentries]
    exact h.entries
  · intro n hpos hle
    rw [hsegs]
    simp only [hhead] at hle
    rcases h.covered n hpos hle with hseg | ⟨h', hmem, hburn⟩
    · exact Or.inl hseg
    · exact Or.inr ⟨h', List.mem_cons_of_mem _ hmem, hburn⟩

end LogSpec

section Chain

variable [Text.CharTables] {cfg : Config}

theorem LogSpec.append {g : Generation} {gens : List Generation}
    (h : LogSpec cfg g (g :: gens)) {o : Origin} {now : Timestamp} {m : Manifest} {version : ℕ}
    (basis : o.attempt.basis.manifest = g.manifest) (wrote : o.Wrote)
    (burned : BurnedTo g.manifest.headSeq o.slot.firstSeq o.slot.burned)
    (edit : o.job.manifest o.attempt now (o.slot.ref cfg) = .ok m) :
    LogSpec cfg ⟨m, version, some o⟩ (⟨m, version, some o⟩ :: g :: gens) := by
  have hfirst : g.manifest.headSeq < (o.slot.ref cfg).firstSeq := burned.1
  have hlog := Job.manifest_logPart edit (fun hb => wrote.lastSeq_of_not_batch hb)
    (basis ▸ h.sorted_append hfirst)
  rw [basis] at hlog
  simp only [Manifest.logPart, LogPart.append, LogPart.mk.injEq] at hlog
  obtain ⟨hhead, hmin, -, hcp, hsegs⟩ := hlog
  have hcpseq : m.checkpointSeq = g.manifest.checkpointSeq := by
    simp only [Manifest.checkpointSeq, hcp]
  have hfl : o.slot.firstSeq ≤ o.slot.lastSeq := wrote.first_le_last
  have hcple := h.checkpoint_le_head
  have hrefs : (o.slot.ref cfg).firstSeq = o.slot.firstSeq ∧
      (o.slot.ref cfg).lastSeq = o.slot.lastSeq := ⟨rfl, rfl⟩
  rw [hrefs.1] at hfirst
  rw [hrefs.2] at hhead
  have hall : ∀ s, s ∈ committedSegments cfg (⟨m, version, some o⟩ :: g :: gens) ↔
      s ∈ committedSegments cfg (g :: gens) ∨ s = o.slot.ref cfg := by
    intro s
    rw [committedSegments]
    simp
  refine ⟨?_, ?_, ?_, ?_, ?_, ?_, ?_, ?_, ?_⟩
  · rw [committedSegments, List.filter_append, hsegs, hcpseq, h.segments]
    have hkeep : decide (g.manifest.checkpointSeq < (o.slot.ref cfg).lastSeq) = true := by
      rw [hrefs.2]
      exact decide_eq_true (by omega)
    simp [hkeep]
  · rw [committedSegments, List.pairwise_append]
    refine ⟨h.ordered, by simp, ?_⟩
    intro s hs t ht
    have hp := h.proper s hs
    simp only [Option.map_some, Option.toList_some, List.mem_singleton] at ht
    rw [ht, hrefs.1]
    omega
  · intro s hs
    rw [hhead]
    rcases (hall s).mp hs with hs | rfl
    · have hp := h.proper s hs
      omega
    · rw [hrefs.1, hrefs.2]
      omega
  · intro h' hmem
    rw [hhead]
    rcases List.mem_cons.mp hmem with rfl | hmem
    · exact hhead.le
    · have := h.heads h' hmem
      omega
  · intro h' hmem s hs
    rcases List.mem_cons.mp hmem with rfl | hmem
    · rcases (hall s).mp hs with hs | rfl
      · have hp := h.proper s hs
        simp only [hhead]
        omega
      · exact Or.inl (by simp only [hhead, hrefs.2]; exact le_rfl)
    · rcases (hall s).mp hs with hs | rfl
      · exact h.boundary h' hmem s hs
      · have := h.heads h' hmem
        rw [hrefs.1]
        omega
  · simp only [hcpseq]
    rcases h.checkpoint with h0 | ⟨h', hmem, heq⟩
    · exact Or.inl h0
    · exact Or.inr ⟨h', List.mem_cons_of_mem _ hmem, heq⟩
  · simp only [hmin, hcp, hcpseq]
    exact h.minSeq
  · intro e he
    rw [committedEntries, List.mem_append] at he
    rcases he with he | he
    · obtain ⟨s, hs, hrange⟩ := h.entries e he
      exact ⟨s, (hall s).mpr (Or.inl hs), hrange⟩
    · exact ⟨o.slot.ref cfg, (hall _).mpr (Or.inr rfl), wrote.mem_seq (by simpa using he)⟩
  · intro n hpos hle
    rw [hhead] at hle
    by_cases hold : n ≤ g.manifest.headSeq
    · rcases h.covered n hpos hold with ⟨s, hs, hrange⟩ | ⟨h', hmem, hburn⟩
      · exact Or.inl ⟨s, (hall s).mpr (Or.inl hs), hrange⟩
      · exact Or.inr ⟨h', List.mem_cons_of_mem _ hmem, hburn⟩
    · by_cases hslot : o.slot.firstSeq ≤ n
      · exact Or.inl ⟨o.slot.ref cfg, (hall _).mpr (Or.inr rfl), hslot, hle⟩
      · refine Or.inr ⟨_, List.mem_cons_self, o, rfl, ?_⟩
        rw [burned.2, List.mem_range'_1]
        omega

/-- Every manifest of a chain satisfies the log specification. -/
theorem Chain.logSpec {g : Generation} {gens : List Generation} (h : Chain cfg (g :: gens)) :
    LogSpec cfg g (g :: gens) := by
  generalize hl : g :: gens = l at h
  induction h generalizing g gens with
  | created access now writer version =>
    cases hl
    exact LogSpec.created access now writer version
  | append older o now m version basis wrote burned edit newer ih =>
    cases hl
    exact (ih rfl).append basis wrote burned edit
  | rewrite older job policy writer now m version edit folded newer ih =>
    cases hl
    exact (ih rfl).rewrite edit folded

/-- One write: the revision grows by one, head and checkpoint never move back. -/
theorem Chain.monotone {g g' : Generation} {gens : List Generation}
    (h : Chain cfg (g' :: g :: gens)) :
    g'.manifest.revision = g.manifest.revision + 1 ∧
      g.manifest.headSeq ≤ g'.manifest.headSeq ∧
      g.manifest.checkpointSeq ≤ g'.manifest.checkpointSeq := by
  cases h with
  | append older o now m version basis wrote burned edit newer =>
    have hfirst : g.manifest.headSeq < (o.slot.ref cfg).firstSeq := burned.1
    have hlog := Job.manifest_logPart edit (fun hb => wrote.lastSeq_of_not_batch hb)
      (basis ▸ older.logSpec.sorted_append hfirst)
    rw [basis] at hlog
    simp only [Manifest.logPart, LogPart.append, LogPart.mk.injEq] at hlog
    obtain ⟨hhead, -, hrev, hcp, -⟩ := hlog
    have hle : o.slot.firstSeq ≤ o.slot.lastSeq := wrote.first_le_last
    refine ⟨hrev, ?_, ?_⟩
    · rw [hhead]
      exact (hfirst.le).trans hle
    · simp only [Manifest.checkpointSeq, hcp]
      exact le_rfl
  | rewrite older job policy writer now m version edit folded newer =>
    rcases MetaJob.manifest_logPart edit with hlog | ⟨view, cp, -, hgrow, hlog⟩
    all_goals
      simp only [Manifest.logPart, LogPart.mk.injEq] at hlog
      obtain ⟨hhead, -, hrev, hcp, -⟩ := hlog
      refine ⟨hrev, hhead.ge, ?_⟩
      simp only [Manifest.checkpointSeq, hcp]
    · exact le_rfl
    · cases hsome : g.manifest.checkpoint with
      | none => simp
      | some c =>
        have := hgrow (by simp [hsome])
        simp [Manifest.checkpointSeq, hsome] at this ⊢
        omega

theorem Chain.older {g g' : Generation} {gens : List Generation} (h : Chain cfg (g' :: g :: gens)) :
    Chain cfg (g :: gens) ∧ g.version < g'.version := by
  cases h with
  | append older o now m version basis wrote burned edit newer => exact ⟨older, newer⟩
  | rewrite older job policy writer now m version edit folded newer => exact ⟨older, newer⟩

/-- A claim is committed over the manifest it was made from. -/
theorem Chain.basis {g g' : Generation} {gens : List Generation} (h : Chain cfg (g' :: g :: gens))
    {o : Origin} (ho : g'.origin = some o) : o.attempt.basis.manifest = g.manifest := by
  cases h with
  | append older p now m version basis wrote burned edit newer =>
    cases ho
    exact basis
  | rewrite older job policy writer now m version edit folded newer => cases ho

/-- Every manifest of a chain heads a chain of its own. -/
theorem Chain.suffix {g : Generation} {gens l : List Generation} (h : Chain cfg l)
    (hs : (g :: gens) <:+ l) : Chain cfg (g :: gens) := by
  induction l with
  | nil => simp at hs
  | cons g' l ih =>
    rcases List.suffix_cons_iff.mp hs with heq | hs
    · exact heq ▸ h
    · cases l with
      | nil => simp at hs
      | cons g'' l => exact ih h.older.1 hs

theorem Chain.version_lt {g : Generation} {gens : List Generation} (h : Chain cfg (g :: gens))
    {g' : Generation} (hmem : g' ∈ gens) : g'.version < g.version := by
  induction gens generalizing g with
  | nil => simp at hmem
  | cons g'' gens ih =>
    obtain ⟨holder, hlt⟩ := h.older
    rcases List.mem_cons.mp hmem with rfl | hmem
    · exact hlt
    · exact (ih holder hmem).trans hlt

theorem Chain.revision_lt {g : Generation} {gens : List Generation} (h : Chain cfg (g :: gens))
    {g' : Generation} (hmem : g' ∈ gens) : g'.manifest.revision < g.manifest.revision := by
  induction gens generalizing g with
  | nil => simp at hmem
  | cons g'' gens ih =>
    have hrev := h.monotone.1
    rcases List.mem_cons.mp hmem with rfl | hmem
    · omega
    · have := ih h.older.1 hmem
      omega

/-- Revisions order the generations, and heads follow them. -/
theorem Chain.of_revision_le {l : List Generation} (h : Chain cfg l) {g g' : Generation}
    (hg : g ∈ l) (hg' : g' ∈ l) (hrev : g.manifest.revision ≤ g'.manifest.revision) :
    g = g' ∨ g.manifest.revision < g'.manifest.revision ∧
      g.manifest.headSeq ≤ g'.manifest.headSeq := by
  induction l with
  | nil => simp at hg
  | cons g'' l ih =>
    rcases List.mem_cons.mp hg with heq | hmem <;> rcases List.mem_cons.mp hg' with heq' | hmem'
    · exact Or.inl (heq.trans heq'.symm)
    · subst heq
      exact absurd (h.revision_lt hmem') (not_lt.mpr hrev)
    · subst heq'
      exact Or.inr ⟨h.revision_lt hmem, h.logSpec.heads g (List.mem_cons_of_mem _ hmem)⟩
    · cases l with
      | nil => simp at hmem
      | cons g₁ l => exact ih h.older.1 hmem hmem'

/-- A version names one generation. -/
theorem Chain.eq_of_version {l : List Generation} (h : Chain cfg l) {g g' : Generation}
    (hg : g ∈ l) (hg' : g' ∈ l) (hv : g.version = g'.version) : g = g' := by
  induction l with
  | nil => simp at hg
  | cons g'' l ih =>
    rcases List.mem_cons.mp hg with heq | hmem <;> rcases List.mem_cons.mp hg' with heq' | hmem'
    · rw [heq, heq']
    · subst heq
      exact absurd hv (h.version_lt hmem').ne'
    · subst heq'
      exact absurd hv (h.version_lt hmem).ne
    · cases l with
      | nil => simp at hmem
      | cons g₁ l => exact ih h.older.1 hmem hmem'

/-- The segment of a committed claim is among the committed ones. -/
theorem Chain.ref_mem {l : List Generation} (h : Chain cfg l) {g : Generation} (hg : g ∈ l)
    {o : Origin} (ho : g.origin = some o) : o.Wrote ∧ o.slot.ref cfg ∈ committedSegments cfg l := by
  induction h with
  | created access now writer version =>
    cases List.mem_singleton.mp hg
    cases ho
  | append older p now m version basis wrote burned edit newer ih =>
    rcases List.mem_cons.mp hg with rfl | hg
    · cases ho
      exact ⟨wrote, by simp [committedSegments]⟩
    · exact ⟨(ih hg).1, by rw [committedSegments]; exact List.mem_append_left _ (ih hg).2⟩
  | rewrite older job policy writer now m version edit folded newer ih =>
    rcases List.mem_cons.mp hg with rfl | hg
    · cases ho
    · exact ⟨(ih hg).1, by rw [committedSegments]; exact List.mem_append_left _ (ih hg).2⟩

/-- A committed claim lies below the newest head. -/
theorem Chain.lastSeq_le {g : Generation} {gens : List Generation} (h : Chain cfg (g :: gens))
    {g' : Generation} (hg' : g' ∈ g :: gens) {o : Origin} (ho : g'.origin = some o) :
    o.slot.firstSeq ≤ o.slot.lastSeq ∧ o.slot.lastSeq ≤ g.manifest.headSeq :=
  ⟨(h.ref_mem hg' ho).1.first_le_last, (h.logSpec.proper _ (h.ref_mem hg' ho).2).2.2⟩

theorem Chain.burned_lt {l : List Generation} (h : Chain cfg l) {g : Generation} (hg : g ∈ l)
    {o : Origin} (ho : g.origin = some o) {b : ℕ × ℕ} (hb : b ∈ o.slot.burned) :
    b.1 < o.slot.firstSeq := by
  induction h with
  | created access now writer version =>
    cases List.mem_singleton.mp hg
    cases ho
  | append older p now m version basis wrote burned edit newer ih =>
    rcases List.mem_cons.mp hg with rfl | hold
    · cases ho
      exact (burned.mem hb).2
    · exact ih hold
  | rewrite older job policy writer now m version edit folded newer ih =>
    rcases List.mem_cons.mp hg with rfl | hold
    · cases ho
    · exact ih hold

/-- A burned sequence number is never the start of a committed segment. -/
theorem Chain.burned_free {l : List Generation} (h : Chain cfg l) {g g' : Generation}
    (hg : g ∈ l) (hg' : g' ∈ l) {o o' : Origin} (ho : g.origin = some o)
    (ho' : g'.origin = some o') {b : ℕ × ℕ} (hb : b ∈ o.slot.burned) :
    o'.slot.firstSeq ≠ b.1 := by
  induction h with
  | created access now writer version =>
    cases List.mem_singleton.mp hg
    cases ho
  | append older p now m version basis wrote burned edit newer ih =>
    rcases List.mem_cons.mp hg with rfl | hold <;> rcases List.mem_cons.mp hg' with rfl | hold'
    · cases ho
      cases ho'
      have := burned.mem hb
      omega
    · cases ho
      have := burned.mem hb
      have := older.lastSeq_le hold' ho'
      omega
    · cases ho'
      have := older.lastSeq_le hold ho
      have := older.burned_lt hold ho hb
      have := burned.1
      omega
    · exact ih hold hold'
  | rewrite older job policy writer now m version edit folded newer ih =>
    rcases List.mem_cons.mp hg with rfl | hold
    · cases ho
    · rcases List.mem_cons.mp hg' with rfl | hold'
      · cases ho'
      · exact ih hold hold'

end Chain

end Walgit
