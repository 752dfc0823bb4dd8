import Mathlib.Data.List.Sort
import Walgit.Batch
import Walgit.Checks
import Walgit.Packs

/-!
# Manifest writers

Every writer of the manifest as a function of the basis it read. Four of them claim a
log slot first (`process_batch`, `publish_compact`, `publish_one`,
`seal_pack_replacement`); three only rewrite the manifest (`checkpoint`,
`annotate_pack`, `reclassify_packs`).
-/
namespace Walgit

/-- Stable sort by a numeric key. -/
def sortByKey {α : Type} (f : α → ℕ) (l : List α) : List α :=
  l.insertionSort fun a b => f a ≤ f b

namespace Manifest

/-- The fields every write sets. -/
def stamp (m : Manifest) (now : Timestamp) (writer : String) : Manifest :=
  { m with updatedAt := some now, writer := writer, revision := m.revision + 1 }

/-- Appends a segment and moves the head to its last entry. -/
def appendSegment (m : Manifest) (seg : LogSegmentRef) : Manifest :=
  { m with
    headSeq := seg.lastSeq
    logSegments := sortByKey LogSegmentRef.firstSeq (m.logSegments ++ [seg]) }

end Manifest

/-- A low-rate control write: one entry and the record it replaces in the manifest. -/
inductive Control where
  | settings (toml author message : String)
  | access (edited : RepoAccess) (ifRevision : Option ℕ)
  | accounts (events : List AccountEvent) (author : String)
  deriving DecidableEq

namespace Control

/-- The entry template and the manifest of one attempt, or why the write is refused. -/
def prepare (c : Control) (m : Manifest) (now : Timestamp) : Except String (LogEntry × Manifest) :=
  match c with
  | .settings toml author message =>
    let settings : RepoSettings :=
      ⟨toml, (m.settings.map RepoSettings.revision).getD 0 + 1, author, some now, message⟩
    .ok ({ kind := .settings, metadata := .ofList [("author", author), ("message", message)],
           settings := some settings }, { m with settings := some settings })
  | .access edited ifRevision =>
    let current := (m.access.map RepoAccess.revision).getD 0
    let doc : RepoAccess := { edited with revision := current + 1, updatedAt := some now }
    let write : LogEntry × Manifest :=
      ({ kind := .access,
         metadata := .ofList [("author", doc.author), ("message", doc.message)],
         access := some doc }, { m with access := some doc })
    match ifRevision with
    | none => .ok write
    | some want =>
      if want ≠ current then
        .error ("access changed meanwhile (revision " ++ toString current ++ ", you edited " ++
          toString want ++ "); reload")
      else .ok write
  | .accounts events author =>
    .ok ({ kind := .account, metadata := .ofList [("author", author)], account := events }, m)

end Control

/-- What a slot-claiming publisher was asked to write. -/
inductive Job where
  | batch (reqs : List PublishRequest)
  | compact (info : PackInfo) (supersedes : List String) (tier : ℕ)
      (classification : Option PackClassification)
  | control (c : Control)
  | sealPacks (captured : Manifest) (inputs : List String) (outputs : List PackRef)
  deriving DecidableEq

/-- One attempt of a job: its basis, the policy read for it and the clock read it stamps. -/
structure Attempt where
  basis : Basis
  policy : PackPolicy
  writer : String
  startedAt : Timestamp
  deriving DecidableEq

/-- The claimed segment as the manifest will name it. -/
def segmentRef (firstSeq lastSeq size : ℕ) : LogSegmentRef :=
  ⟨.log firstSeq, firstSeq, lastSeq, size, true⟩

section Writers

variable [Text.CharTables]

/-- The pack descriptor a compaction publishes: the given classification, or the one the
same bytes already carry. -/
def compactPack (m : Manifest) (info : PackInfo) (tier : ℕ)
    (classification : Option PackClassification) (now : Timestamp) : Except String PackRef :=
  let pack := packRefFromInfo info 0 tier now
  match classification with
  | some c =>
    if c.checksum ≠ pack.checksum then .error "classification names another output"
    else .ok (c.apply pack)
  | none =>
    match m.packs.find? fun p => p.checksum == pack.checksum with
    | some previous => .ok ((PackClassification.fromPack previous).apply pack)
    | none => .ok pack

def commitCompact (m : Manifest) (policy : PackPolicy) (pack : PackRef) (supersedes : List String)
    (seq : ℕ) (now : Timestamp) : Manifest :=
  let retired := supersedes.filter (· ≠ pack.checksum)
  let m := m.retirePacksAt retired seq now
  let kept := m.packs.filter fun p => p.checksum ∉ supersedes && p.checksum ≠ pack.checksum
  let m := { m with packs := sortByKey PackRef.seq (kept ++ [{ pack with seq := seq }]) }
  m.pruneInvalidCoverages policy [pack.checksum]

/-- The output descriptors of a replacement written over the committed ones. -/
def sealOutput (now : Timestamp) (packs : List PackRef) (out : PackRef) :
    Except String (List PackRef) :=
  match packs.find? fun p => p.checksum == out.checksum with
  | none => .error "replacement output is not committed"
  | some pack =>
    if !samePackBytes pack out then .error "replacement output descriptor changed"
    else
      let pack' : PackRef :=
        { (PackClassification.fromPack out).apply pack with
          tier := out.tier
          derivedFrom := out.derivedFrom
          publishedAt := pack.publishedAt.or (some now) }
      .ok (modifyFirst (fun p => p.checksum == out.checksum) (fun _ => pack') packs)

/-- An input is still live and unchanged since it was captured. -/
def sealInput (captured current : Manifest) (id : String) : Except String Unit :=
  match captured.packs.find? fun p => p.checksum == id with
  | none => .error "replacement input was never captured"
  | some original =>
    match current.packs.find? fun p => p.checksum == id with
    | none => .error "replacement input retired during work"
    | some live =>
      if PackClassification.fromPack original ≠ PackClassification.fromPack live ||
          original.derivedFrom ≠ live.derivedFrom || original.tier ≠ live.tier ||
          !samePackBytes original live then
        .error "replacement input scope changed during work"
      else .ok ()

def sealRetired (inputs : List String) (outputs : List PackRef) : List String :=
  inputs.filter fun id => id ∉ outputs.map PackRef.checksum

/-- The inventory a replacement commits, before its slot is claimed. -/
def sealManifest (m : Manifest) (policy : PackPolicy) (captured : Manifest)
    (inputs : List String) (outputs : List PackRef) (now : Timestamp) : Except String Manifest := do
  if inputs.isEmpty || outputs.isEmpty || 4096 < inputs.length || 4096 < outputs.length then
    throw "replacement needs bounded, nonempty input/output sets"
  if !decide inputs.Nodup || !decide (outputs.map PackRef.checksum).Nodup then
    throw "duplicate replacement input/output"
  inputs.forM (sealInput captured m)
  let packs ← outputs.foldlM (sealOutput now) m.packs
  let retire := sealRetired inputs outputs
  let m' := { m with packs := packs }.retirePacksAt retire (m.headSeq + 1) now
  let m' := { m' with packs := m'.packs.filter fun p => p.checksum ∉ retire }
  pure (m'.pruneInvalidCoverages policy (outputs.map PackRef.checksum))

/-- Newly retired members carry the sequence the claim settled on. -/
def sealRetiredSeq (before after : Manifest) (retire : List String) (seq : ℕ) : Manifest :=
  { after with retiredPacks := after.retiredPacks.map fun r =>
      if r.checksum ∈ retire && before.retiredPacks.all (fun p => p.checksum ≠ r.checksum) then
        { r with retiredSeq := seq }
      else r }

namespace Job

/-- The entries a job writes at a slot; `clock` gives the reads made while building them. -/
def entries (job : Job) (a : Attempt) (clock : ℕ → Timestamp) (firstSeq : ℕ) :
    Except String (List LogEntry) :=
  match job with
  | .batch reqs =>
    let members := accepted reqs (verifyBatch a.basis reqs).1
    .ok (buildEntries a.writer a.startedAt clock firstSeq members)
  | .compact info supersedes tier classification => do
    let pack ← compactPack a.basis.manifest info tier classification a.startedAt
    pure [{ seq := firstSeq, kind := .compact, pack := some { pack with seq := firstSeq },
            supersedes := supersedes, createdAt := some a.startedAt, writer := a.writer }]
  | .control c => do
    let (template, _) ← c.prepare a.basis.manifest a.startedAt
    pure [{ template with seq := firstSeq, createdAt := some a.startedAt, writer := a.writer }]
  | .sealPacks captured inputs outputs => do
    let _ ← sealManifest a.basis.manifest a.policy captured inputs outputs a.startedAt
    pure [{ seq := firstSeq, kind := .compact, supersedes := sealRetired inputs outputs,
            createdAt := some a.startedAt, writer := a.writer }]

/-- The manifest a job commits once its slot is claimed. -/
def manifest (job : Job) (a : Attempt) (now : Timestamp) (seg : LogSegmentRef) :
    Except String Manifest :=
  let m := a.basis.manifest
  match job with
  | .batch reqs =>
    let r := verifyBatch a.basis reqs
    let packs := (buildEntries a.writer a.startedAt (fun _ => now) seg.firstSeq
      (accepted reqs r.1)).filterMap LogEntry.pack
    let m' : Manifest :=
      { m with
        forgeNextNumber := if max m.forgeNextNumber 1 < r.2.forgeNext then r.2.forgeNext
          else m.forgeNextNumber
        packs := sortByKey PackRef.seq (m.packs ++ packs) }
    .ok ((m'.appendSegment seg).stamp now a.writer)
  | .compact info supersedes tier classification => do
    let pack ← compactPack m info tier classification a.startedAt
    let m' := commitCompact m a.policy pack supersedes seg.firstSeq now
    pure ((m'.appendSegment seg).stamp now a.writer)
  | .control c => do
    let (_, next) ← c.prepare m a.startedAt
    pure ((next.appendSegment seg).stamp now a.writer)
  | .sealPacks captured inputs outputs => do
    let m' ← sealManifest m a.policy captured inputs outputs a.startedAt
    let m' := sealRetiredSeq m m' (sealRetired inputs outputs) seg.firstSeq
    -- The segment is pushed without the sort the other writers make.
    pure ({ m' with headSeq := seg.firstSeq, logSegments := m'.logSegments ++ [seg] }.stamp
      a.startedAt a.writer)

end Job

end Writers

/-- The writers that change the manifest without a log entry. -/
inductive MetaJob where
  | checkpoint (view : Manifest) (cp : CheckpointRef)
  | annotate (checksum : String) (rev bitmap commitGraph : Bool)
  | reclassify (changes : List PackClassification)
  deriving DecidableEq

namespace MetaJob

/-- The manifest a metadata write commits over its basis; `none` when it finds nothing to do
or refuses. -/
def manifest (job : MetaJob) (m : Manifest) (policy : PackPolicy) (writer : String)
    (now : Timestamp) : Option Manifest :=
  match job with
  | .checkpoint _ cp =>
    if m.checkpoint.isSome && cp.seq ≤ m.checkpointSeq then none
    else
      some ({ m with
        checkpoint := some cp
        minSeq := cp.seq + 1
        logSegments := m.logSegments.filter fun s => cp.seq < s.lastSeq }.stamp now writer)
  | .annotate checksum rev bitmap commitGraph =>
    if m.packs.any (fun p => p.checksum == checksum) then
      some ({ m with packs := modifyFirst (fun p => p.checksum == checksum) (fun p =>
        { p with
          hasRev := p.hasRev || rev
          hasBitmap := p.hasBitmap || bitmap
          hasCommitGraph := p.hasCommitGraph || commitGraph }) m.packs }.stamp now writer)
    else none
  | .reclassify changes => do
    let packs ← changes.foldlM (fun packs change =>
      if packs.any (fun p => p.checksum == change.checksum) then
        some (modifyFirst (fun p => p.checksum == change.checksum) change.apply packs)
      else none) m.packs
    let m' := { m with packs := packs }
    pure ((m'.pruneInvalidCoverages policy (changes.map PackClassification.checksum)).stamp
      now writer)

end MetaJob

/-- The fields of a manifest that describe its log. -/
structure LogPart where
  headSeq : ℕ
  minSeq : ℕ
  revision : ℕ
  checkpoint : Option CheckpointRef
  logSegments : List LogSegmentRef
  deriving DecidableEq

namespace Manifest

def logPart (m : Manifest) : LogPart :=
  ⟨m.headSeq, m.minSeq, m.revision, m.checkpoint, m.logSegments⟩

@[simp] theorem logPart_stamp (m : Manifest) (now : Timestamp) (writer : String) :
    (m.stamp now writer).logPart = { m.logPart with revision := m.revision + 1 } := rfl

@[simp] theorem logPart_appendSegment (m : Manifest) (seg : LogSegmentRef) :
    (m.appendSegment seg).logPart =
      { m.logPart with
        headSeq := seg.lastSeq
        logSegments := sortByKey LogSegmentRef.firstSeq (m.logSegments ++ [seg]) } := rfl

@[simp] theorem logPart_retirePacksAt (m : Manifest) (ids : List String) (seq : ℕ)
    (now : Timestamp) : (m.retirePacksAt ids seq now).logPart = m.logPart := rfl

theorem logPart_pruneFor (fuel : ℕ) (m : Manifest) (policy : PackPolicy) (changed : List String) :
    (pruneFor fuel m policy changed).logPart = m.logPart := by
  induction fuel generalizing m with
  | zero => rfl
  | succ fuel ih =>
    unfold pruneFor
    simp only
    split_ifs
    · rfl
    · rw [ih]
      rfl

@[simp] theorem logPart_pruneInvalidCoverages (m : Manifest) (policy : PackPolicy)
    (changed : List String) : (m.pruneInvalidCoverages policy changed).logPart = m.logPart :=
  logPart_pruneFor _ m policy changed

end Manifest

@[simp] theorem logPart_commitCompact (m : Manifest) (policy : PackPolicy) (pack : PackRef)
    (supersedes : List String) (seq : ℕ) (now : Timestamp) :
    (commitCompact m policy pack supersedes seq now).logPart = m.logPart := by
  rw [commitCompact, Manifest.logPart_pruneInvalidCoverages]
  rfl

/-- A control write changes nothing but its record. -/
theorem Control.prepare_eq {c : Control} {m next : Manifest} {now : Timestamp}
    {template : LogEntry} (h : c.prepare m now = .ok (template, next)) :
    next = { m with access := next.access, settings := next.settings } := by
  cases c with
  | settings toml author message =>
    cases h
    rfl
  | access edited ifRevision =>
    simp only [Control.prepare] at h
    split at h
    · cases h
      rfl
    · split_ifs at h
      cases h
      rfl
  | accounts events author =>
    cases h
    rfl

theorem Control.prepare_logPart {c : Control} {m next : Manifest} {now : Timestamp}
    {template : LogEntry} (h : c.prepare m now = .ok (template, next)) :
    next.logPart = m.logPart := by
  rw [Control.prepare_eq h]
  rfl

theorem sealManifest_logPart {m m' captured : Manifest} {policy : PackPolicy}
    {inputs : List String} {outputs : List PackRef} {now : Timestamp}
    (h : sealManifest m policy captured inputs outputs now = .ok m') : m'.logPart = m.logPart := by
  simp only [sealManifest, bind, Except.bind, pure, Except.pure] at h
  split at h
  · cases h
  · split at h
    · cases h
    · split at h
      · cases h
      · split at h
        · cases h
        · rename_i packs _
          cases h
          rw [Manifest.logPart_pruneInvalidCoverages]
          rfl

/-- The log part after a segment was appended. -/
def LogPart.append (l : LogPart) (seg : LogSegmentRef) : LogPart :=
  { l with
    headSeq := seg.lastSeq
    revision := l.revision + 1
    logSegments := l.logSegments ++ [seg] }

theorem mem_sortByKey {α : Type} {f : α → ℕ} {l : List α} {a : α} :
    a ∈ sortByKey f l ↔ a ∈ l :=
  (List.perm_insertionSort _ l).mem_iff

theorem sortByKey_eq_self {α : Type} {f : α → ℕ} {l : List α}
    (h : l.Pairwise fun a b => f a ≤ f b) : sortByKey f l = l :=
  List.Pairwise.insertionSort_eq h

theorem buildEntries_seqs (writer : String) (publishedAt : Timestamp) (now : ℕ → Timestamp)
    (n : ℕ) (members : List (PublishRequest × List ForgeEvent)) :
    (buildEntries writer publishedAt now n members).map LogEntry.seq =
      List.range' n members.length := by
  induction members generalizing n with
  | nil => rfl
  | cons p members ih =>
    simp [buildEntries, ih, List.range'_succ, buildEntry]

namespace Job

variable [Text.CharTables]

def isBatch : Job → Bool
  | .batch _ => true
  | _ => false

/-- Whatever a slot job changes in the inventory, its effect on the log is one segment more. -/
theorem manifest_logPart {job : Job} {a : Attempt} {now : Timestamp} {seg : LogSegmentRef}
    {m : Manifest} (h : job.manifest a now seg = .ok m)
    (hone : job.isBatch = false → seg.lastSeq = seg.firstSeq)
    (hsorted : (a.basis.manifest.logSegments ++ [seg]).Pairwise
      fun s t => s.firstSeq ≤ t.firstSeq) :
    m.logPart = a.basis.manifest.logPart.append seg := by
  have happend : ∀ n : Manifest, n.logPart = a.basis.manifest.logPart →
      ∀ t : Timestamp, ((n.appendSegment seg).stamp t a.writer).logPart =
        a.basis.manifest.logPart.append seg := by
    intro n hn t
    have hsegs : n.logSegments = a.basis.manifest.logSegments := congrArg LogPart.logSegments hn
    have hrev : n.revision = a.basis.manifest.revision := congrArg LogPart.revision hn
    rw [Manifest.logPart_stamp, Manifest.logPart_appendSegment, hsegs, sortByKey_eq_self hsorted,
      hn]
    simp only [Manifest.appendSegment, hrev]
    rfl
  cases job with
  | batch reqs =>
    cases h
    exact happend _ rfl now
  | compact info supersedes tier classification =>
    simp only [manifest, bind, Except.bind, pure, Except.pure] at h
    split at h
    · cases h
    · cases h
      exact happend _ (logPart_commitCompact ..) now
  | control c =>
    simp only [manifest, bind, Except.bind, pure, Except.pure] at h
    split at h
    · cases h
    · rename_i r hr
      cases h
      exact happend _ (Control.prepare_logPart hr) now
  | sealPacks captured inputs outputs =>
    simp only [manifest, bind, Except.bind, pure, Except.pure] at h
    split at h
    · cases h
    · rename_i m' hm'
      cases h
      have hlog := sealManifest_logPart hm'
      simp only [Manifest.logPart, LogPart.mk.injEq] at hlog
      obtain ⟨-, hmin, hrev, hcp, hsegs⟩ := hlog
      simp [Manifest.logPart, LogPart.append, Manifest.stamp, sealRetiredSeq, hmin, hrev, hcp,
        hsegs, hone rfl]

/-- Entries are numbered consecutively from the slot's sequence. -/
theorem entries_seqs {job : Job} {a : Attempt} {clock : ℕ → Timestamp} {n : ℕ}
    {es : List LogEntry} (h : job.entries a clock n = .ok es) :
    es.map LogEntry.seq = List.range' n es.length := by
  cases job with
  | batch reqs =>
    cases h
    have hlen := congrArg List.length
      (buildEntries_seqs a.writer a.startedAt clock n (accepted reqs (verifyBatch a.basis reqs).1))
    rw [buildEntries_seqs]
    simp only [List.length_map, List.length_range'] at hlen
    rw [hlen]
  | compact info supersedes tier classification =>
    simp only [entries, bind, Except.bind, pure, Except.pure] at h
    split at h
    · cases h
    · cases h
      rfl
  | control c =>
    simp only [entries, bind, Except.bind, pure, Except.pure] at h
    split at h
    · cases h
    · cases h
      rfl
  | sealPacks captured inputs outputs =>
    simp only [entries, bind, Except.bind, pure, Except.pure] at h
    split at h
    · cases h
    · cases h
      rfl

theorem entries_length_of_not_batch {job : Job} {a : Attempt} {clock : ℕ → Timestamp} {n : ℕ}
    {es : List LogEntry} (h : job.entries a clock n = .ok es) (hb : job.isBatch = false) :
    es.length = 1 := by
  cases job with
  | batch reqs => cases hb
  | compact info supersedes tier classification =>
    simp only [entries, bind, Except.bind, pure, Except.pure] at h
    split at h <;> cases h
    rfl
  | control c =>
    simp only [entries, bind, Except.bind, pure, Except.pure] at h
    split at h <;> cases h
    rfl
  | sealPacks captured inputs outputs =>
    simp only [entries, bind, Except.bind, pure, Except.pure] at h
    split at h <;> cases h
    rfl

/-- Only a batch writes ref transactions and forge events. -/
theorem entries_of_not_batch {job : Job} {a : Attempt} {clock : ℕ → Timestamp} {n : ℕ}
    {es : List LogEntry} (h : job.entries a clock n = .ok es) (hb : job.isBatch = false) :
    ∀ e ∈ es, e.txn = none ∧ e.forge = [] := by
  cases job with
  | batch reqs => cases hb
  | compact info supersedes tier classification =>
    simp only [entries, bind, Except.bind, pure, Except.pure] at h
    split at h <;> cases h
    simp
  | control c =>
    simp only [entries, bind, Except.bind, pure, Except.pure] at h
    split at h
    · cases h
    · rename_i r hr
      cases h
      have htemplate : r.1.txn = none ∧ r.1.forge = [] := by
        cases c with
        | settings toml author message =>
          cases hr
          exact ⟨rfl, rfl⟩
        | access edited ifRevision =>
          simp only [Control.prepare] at hr
          split at hr
          · cases hr
            exact ⟨rfl, rfl⟩
          · split_ifs at hr
            cases hr
            exact ⟨rfl, rfl⟩
        | accounts events author =>
          cases hr
          exact ⟨rfl, rfl⟩
      simpa using htemplate
  | sealPacks captured inputs outputs =>
    simp only [entries, bind, Except.bind, pure, Except.pure] at h
    split at h <;> cases h
    simp

/-- How many entries a job writes does not depend on the clock or the slot. -/
theorem entries_length_congr {job : Job} {a : Attempt} {c c' : ℕ → Timestamp} {n n' : ℕ}
    {es es' : List LogEntry} (h : job.entries a c n = .ok es) (h' : job.entries a c' n' = .ok es') :
    es.length = es'.length := by
  by_cases hb : job.isBatch
  · cases job with
    | batch reqs =>
      cases h
      cases h'
      have hlen := fun c n => congrArg List.length (buildEntries_seqs a.writer a.startedAt c n
        (accepted reqs (verifyBatch a.basis reqs).1))
      simp only [List.length_map, List.length_range'] at hlen
      rw [hlen, hlen]
    | _ => cases hb
  · rw [entries_length_of_not_batch h (by simpa using hb),
      entries_length_of_not_batch h' (by simpa using hb)]

end Job

/-- A metadata write either leaves the log part alone or folds the log into a checkpoint. -/
theorem MetaJob.manifest_logPart {job : MetaJob} {b m : Manifest} {policy : PackPolicy}
    {writer : String} {now : Timestamp} (h : job.manifest b policy writer now = some m) :
    m.logPart = { b.logPart with revision := b.revision + 1 } ∨
      ∃ view cp, job = .checkpoint view cp ∧ (b.checkpoint.isSome → b.checkpointSeq < cp.seq) ∧
        m.logPart =
          { headSeq := b.headSeq
            minSeq := cp.seq + 1
            revision := b.revision + 1
            checkpoint := some cp
            logSegments := b.logSegments.filter fun s => cp.seq < s.lastSeq } := by
  cases job with
  | checkpoint view cp =>
    simp only [MetaJob.manifest] at h
    split_ifs at h with hdone
    cases h
    refine Or.inr ⟨view, cp, rfl, fun hsome => ?_, rfl⟩
    by_contra hle
    exact hdone (by simp [hsome, not_lt.mp hle])
  | annotate checksum rev bitmap commitGraph =>
    simp only [MetaJob.manifest] at h
    split_ifs at h
    cases h
    exact Or.inl rfl
  | reclassify changes =>
    simp only [MetaJob.manifest, bind, Option.bind, pure] at h
    split at h
    · cases h
    · cases h
      refine Or.inl ?_
      have hlog := Manifest.logPart_pruneInvalidCoverages
        { b with packs := ‹List PackRef› } policy (changes.map PackClassification.checksum)
      simp only [Manifest.logPart, LogPart.mk.injEq, Manifest.stamp] at hlog ⊢
      exact ⟨hlog.1, hlog.2.1, by rw [hlog.2.2.1], hlog.2.2.2⟩

theorem MetaJob.manifest_headSeq {job : MetaJob} {b m : Manifest} {policy : PackPolicy}
    {writer : String} {now : Timestamp} (h : job.manifest b policy writer now = some m) :
    m.headSeq = b.headSeq := by
  rcases MetaJob.manifest_logPart h with hlog | ⟨view, cp, -, -, hlog⟩
  · exact congrArg LogPart.headSeq hlog
  · exact congrArg LogPart.headSeq hlog

namespace Manifest

/-- The fields that only batches and control writes change. -/
def records (m : Manifest) : Option RepoAccess × Option RepoSettings × ℕ :=
  (m.access, m.settings, m.forgeNextNumber)

theorem records_pruneFor (fuel : ℕ) (m : Manifest) (policy : PackPolicy) (changed : List String) :
    (pruneFor fuel m policy changed).records = m.records := by
  induction fuel generalizing m with
  | zero => rfl
  | succ fuel ih =>
    unfold pruneFor
    simp only
    split_ifs
    · rfl
    · rw [ih]
      rfl

end Manifest

theorem commitCompact_records (m : Manifest) (policy : PackPolicy) (pack : PackRef)
    (supersedes : List String) (seq : ℕ) (now : Timestamp) :
    (commitCompact m policy pack supersedes seq now).records = m.records := by
  rw [commitCompact, Manifest.pruneInvalidCoverages, Manifest.records_pruneFor]
  rfl

theorem sealManifest_records {m m' captured : Manifest} {policy : PackPolicy}
    {inputs : List String} {outputs : List PackRef} {now : Timestamp}
    (h : sealManifest m policy captured inputs outputs now = .ok m') :
    m'.records = m.records := by
  simp only [sealManifest, Checks.guard_ok, Checks.bind_eq_ok] at h
  obtain ⟨-, -, -, -, packs, -, h⟩ := h
  cases h
  rw [Manifest.pruneInvalidCoverages, Manifest.records_pruneFor]
  rfl

theorem Job.manifest_records [Text.CharTables] {job : Job} {a : Attempt} {now : Timestamp}
    {seg : LogSegmentRef} {m : Manifest} (h : job.manifest a now seg = .ok m)
    (hb : job.isBatch = false) (hc : ∀ c, job ≠ .control c) :
    m.records = a.basis.manifest.records := by
  cases job with
  | batch reqs => cases hb
  | compact info supersedes tier classification =>
    simp only [manifest, Checks.bind_eq_ok] at h
    obtain ⟨pack, -, h⟩ := h
    cases h
    exact commitCompact_records ..
  | control c => exact absurd rfl (hc c)
  | sealPacks captured inputs outputs =>
    simp only [manifest, Checks.bind_eq_ok] at h
    obtain ⟨m', hm', h⟩ := h
    cases h
    have hkept : m'.records = a.basis.manifest.records := sealManifest_records hm'
    exact hkept

theorem MetaJob.manifest_records {job : MetaJob} {b m : Manifest} {policy : PackPolicy}
    {writer : String} {now : Timestamp} (h : job.manifest b policy writer now = some m) :
    m.records = b.records := by
  cases job with
  | checkpoint view cp =>
    simp only [MetaJob.manifest] at h
    split_ifs at h
    cases h
    rfl
  | annotate checksum rev bitmap commitGraph =>
    simp only [MetaJob.manifest] at h
    split_ifs at h
    cases h
    rfl
  | reclassify changes =>
    simp only [MetaJob.manifest, Option.bind_eq_bind, Option.bind_eq_some_iff] at h
    obtain ⟨packs, -, h⟩ := h
    cases h
    exact Manifest.records_pruneFor ..

end Walgit
