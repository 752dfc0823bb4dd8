import Walgit.Coverage

/-!
# The readiness of a local copy

What an instance says of its packs while passes over the pack directory, syncs and its own writes
interleave. A pass of `reconcile_packs` works on the manifest it captured, under a lock of its own:
it announces at once which packs are served remotely, then installs, removes, and at the end
records the revision it captured. Syncs and writes run beside it under another lock.
-/
namespace Walgit

namespace Readiness

/-- History packs are installed in the background; nothing waits for them. -/
def isHistory (p : PackRef) : Bool :=
  p.kind == .history && p.packGroups.isEmpty && p.derivedFrom != ""

/-- One pack, up to what a compaction rewrites. -/
def keeps (p q : PackRef) : Bool := q.checksum == p.checksum && isHistory q == isHistory p

inductive PackPlan where
  | localCopy
  | link
  | remote
  deriving DecidableEq, Repr

/-- Why a pass runs; a foreground pass is left out when its level is satisfied. -/
inductive Cause where
  /-- A serving sync; a pack served remotely may have become readable through the mount. -/
  | serve (mountable : Bool)
  /-- A full sync; local packs may be links into the mount. -/
  | full (linked : Bool)
  | history
  deriving DecidableEq, Repr

inductive Phase where
  | installing (missing : List String)
  | removing (doomed : List String)
  | keeping (kept : List String)
  | closing
  deriving DecidableEq, Repr

/-- A pass under `pack_mutex`, with the manifest it captured. -/
structure Pass where
  manifest : Manifest
  phase : Phase
  deriving DecidableEq

/-- What a write of this instance puts into the manifest. -/
inductive WriteKind where
  | batch (uploads : List String)
  | compact (pack : String) (supersedes : List String)
  | control
  | checkpoint
  /-- With nothing to retire, also a write that annotates or reclassifies packs. -/
  | sealPacks (retire : List String)
  deriving DecidableEq, Repr

/-- A write whose swap succeeded. -/
structure Write where
  kind : WriteKind
  basis : Manifest
  result : Manifest
  deriving DecidableEq

/-- What the holder of `sync_mutex` has still to do. -/
inductive Busy where
  | adopt (m : Manifest)
  | settle (w : Write) (committed : Manifest)
  deriving DecidableEq

structure State where
  /-- The manifests in the store so far, the newest first. -/
  chain : List Manifest
  held : Manifest
  /-- The manifest whose revision the local state records. -/
  applied : Manifest
  packsRevision : ℕ
  pendingPackRemovals : List String
  remoteServed : List String
  installed : List String
  /-- Writes of this instance that are not settled locally. -/
  writes : List Write
  busy : Option Busy
  pass : Option Pass
  deriving DecidableEq

namespace WriteKind

/-- The packs whose files the write uploaded from the local copy. -/
def uploads : WriteKind → List String
  | batch uploads => uploads
  | compact pack _ => [pack]
  | _ => []

/-- What the write does to the live packs; a compaction may rewrite the certificates of the packs
it keeps, and a seal removes and rewrites packs. -/
def writes (kind : WriteKind) (basis result : Manifest) : Bool :=
  match kind with
  | batch _ | compact _ _ =>
    result.packs.all fun p => basis.packs.any (keeps p) || p.checksum ∈ kind.uploads
  | control | checkpoint => result.packs = basis.packs
  | sealPacks _ => true

/-- An unsure swap that turns out to have landed may be settled on a later manifest. -/
def settlesOn (kind : WriteKind) (result committed : Manifest) : Bool :=
  match kind with
  | control | checkpoint => committed = result
  | _ => result.revision ≤ committed.revision

/-- The write that a publisher's job makes. -/
def ofJob : Job → WriteKind
  | .batch reqs => .batch (reqs.filterMap fun req => req.pack.map IngestedPack.checksum)
  | .compact info supersedes _ _ => .compact info.checksum supersedes
  | .control _ => .control
  | .sealPacks _ inputs outputs => .sealPacks (sealRetired inputs outputs)

end WriteKind

theorem keeps_refl (p : PackRef) : keeps p p := by
  simp [keeps]

theorem keeps_trans {p q r : PackRef} (hpq : keeps p q) (hqr : keeps q r) : keeps p r := by
  simp only [keeps, Bool.and_eq_true, beq_iff_eq] at hpq hqr ⊢
  exact ⟨hqr.1.trans hpq.1, hqr.2.trans hpq.2⟩

theorem pruneFor_keeps {fuel : ℕ} {m : Manifest} {policy : PackPolicy} {changed : List String}
    {p : PackRef} (hp : p ∈ (Manifest.pruneFor fuel m policy changed).packs) :
    ∃ q ∈ m.packs, keeps p q := by
  have honce : ∀ (m : Manifest) {p : PackRef}, p ∈ (m.pruneOnce policy changed).packs →
      ∃ q ∈ m.packs, keeps p q := by
    intro m p hp
    obtain ⟨q, hq, rfl⟩ := List.mem_map.mp hp
    refine ⟨q, hq, ?_⟩
    split_ifs
    · exact keeps_refl q
    · exact keeps_refl q
  induction fuel generalizing m p with
  | zero => exact ⟨p, hp, keeps_refl p⟩
  | succ fuel ih =>
    simp only [Manifest.pruneFor] at hp
    split_ifs at hp
    · exact honce m hp
    · obtain ⟨r, hr, hpr⟩ := ih hp
      obtain ⟨q, hq, hrq⟩ := honce m hr
      exact ⟨q, hq, keeps_trans hpr hrq⟩

/-- The manifests that the publishers' jobs commit are writes of these kinds. -/
theorem WriteKind.ofJob_writes [Text.CharTables] {job : Job} {a : Attempt} {now : Timestamp}
    {seg : LogSegmentRef} {result : Manifest} (h : job.manifest a now seg = .ok result) :
    (ofJob job).writes a.basis.manifest result ∧
      result.revision = a.basis.manifest.revision + 1 := by
  cases job with
  | batch reqs =>
    cases h
    refine ⟨List.all_eq_true.mpr fun p hp => Bool.or_eq_true_iff.mpr ?_, rfl⟩
    rcases List.mem_append.mp (mem_sortByKey.mp hp) with hold | hnew
    · exact Or.inl (List.any_eq_true.mpr ⟨p, hold, keeps_refl p⟩)
    · obtain ⟨e, he, hpack⟩ := List.mem_filterMap.mp hnew
      obtain ⟨member, hmember, seq, rfl⟩ := mem_buildEntries he
      change member.1.pack.map _ = some p at hpack
      obtain ⟨ingested, hingested, rfl⟩ := Option.map_eq_some_iff.mp hpack
      refine Or.inr (decide_eq_true (List.mem_filterMap.mpr ⟨member.1, ?_, ?_⟩))
      · exact accepted_subset _ hmember
      · rw [hingested]
        rfl
  | compact info supersedes tier classification =>
    simp only [Job.manifest, Checks.bind_eq_ok] at h
    obtain ⟨pack, hpack, h⟩ := h
    cases h
    refine ⟨List.all_eq_true.mpr fun p hp => Bool.or_eq_true_iff.mpr ?_, ?_⟩
    · obtain ⟨q, hq, hkeeps⟩ := pruneFor_keeps hp
      rcases List.mem_append.mp (mem_sortByKey.mp hq) with hold | hnew
      · exact Or.inl (List.any_eq_true.mpr ⟨q, (List.mem_filter.mp hold).1, hkeeps⟩)
      · have hsame : q.checksum = p.checksum := by
          simpa using (Bool.and_eq_true_iff.mp hkeeps).1
        rw [List.mem_singleton.mp hnew] at hsame
        have hchecksum : pack.checksum = info.checksum := Packing.compactPack_checksum hpack
        exact Or.inr (decide_eq_true (List.mem_singleton.mpr (hsame.symm.trans hchecksum)))
    · have hlog := congrArg LogPart.revision (logPart_commitCompact a.basis.manifest a.policy pack
        supersedes seg.firstSeq now)
      exact congrArg (· + 1) hlog
  | control c =>
    simp only [Job.manifest, Checks.bind_eq_ok] at h
    obtain ⟨⟨template, next⟩, hprepare, h⟩ := h
    cases h
    have hnext := Control.prepare_eq hprepare
    refine ⟨decide_eq_true ?_, ?_⟩
    · change next.packs = _
      rw [hnext]
    · change next.revision + 1 = _
      rw [hnext]
  | sealPacks captured inputs outputs =>
    simp only [Job.manifest, Checks.bind_eq_ok] at h
    obtain ⟨m', hseal, h⟩ := h
    cases h
    exact ⟨rfl, congrArg (· + 1) (congrArg LogPart.revision (sealManifest_logPart hseal))⟩

namespace State

def packsReady (s : State) : Bool :=
  s.packsRevision = s.applied.revision && s.pendingPackRemovals.isEmpty

def addPending (s : State) (ids : List String) : State :=
  { s with
    pendingPackRemovals := ids.foldl
      (fun pending id => if id ∈ pending then pending else pending ++ [id]) s.pendingPackRemovals }

/-- The local state moves to a manifest; the record of its packs only when they are ready. -/
def record (s : State) (m : Manifest) (ready : Bool) : State :=
  { s with applied := m, packsRevision := if ready then m.revision else s.packsRevision }

/-- `apply_delta`, with what the replayed compactions superseded. -/
def apply (s : State) (m : Manifest) (supersedes : List String) : State :=
  let s := s.addPending supersedes
  s.record m (s.packsReady && s.applied.revision = s.held.revision && s.held.packs = m.packs)

def adopt (s : State) (m : Manifest) : Option State :=
  if s.held.revision > m.revision then none else some { s with held := m }

/-- What a write does to the local state once its manifest is adopted. -/
def settle (s : State) (w : Write) (committed : Manifest) : State :=
  let direct := s.applied.revision = w.basis.revision && committed.revision = w.basis.revision + 1
  match w.kind with
  | .batch _ => s.record committed (s.packsReady && direct)
  | .compact _ supersedes =>
    let s := s.addPending supersedes
    s.record committed (s.packsReady && direct)
  | .control =>
    s.record committed
      (s.packsReady && s.applied.revision = w.basis.revision && w.basis.packs = committed.packs)
  | .checkpoint => s.record committed s.packsReady
  | .sealPacks retire => (s.record committed false).addPending retire

end State

/-- How the catch-up before a local commit ends: it fails, it applies without the copy being
refreshed, or all is well. -/
inductive CatchUp where
  | failed
  | stale
  | done
  deriving DecidableEq, Repr

inductive Action where
  /-- Another instance writes a manifest. -/
  | written (m : Manifest)
  | ingest (id : String)
  | syncApply (m : Manifest) (supersedes : List String)
  | syncFail (supersedes : List String)
  | syncAdopt (refreshed : Bool)
  | write (kind : WriteKind) (result : Manifest)
  | commit (w : Write) (committed : Manifest) (supersedes : List String) (catchUp : CatchUp)
  | settle
  | begin (cause : Cause) (plan : PackRef → PackPlan) (replaced : List String)
  | install (id : String)
  | takePending (locked : Bool)
  | remove
  | putBack
  | finish
  | fail

namespace State

def newest (s : State) : Option Manifest := s.chain.head?

/-- The levels for which a pass is left out. -/
def satisfied (s : State) : Cause → Bool
  | .serve mountable => s.packsReady && !mountable
  | .full linked => s.packsReady && !linked
  | .history => false

/-- The catch-up of a local commit, when later entries landed with it. -/
def catchUp (s : State) (w : Write) (committed : Manifest) (supersedes : List String)
    (how : CatchUp) : State :=
  if s.applied.headSeq < committed.headSeq ∧ w.result.headSeq < committed.headSeq then
    match how with
    | .failed => s.addPending supersedes
    | _ => s.apply committed supersedes
  else s

/-- A local commit up to the adoption of the manifest. -/
def commit (s : State) (w : Write) (committed : Manifest) (supersedes : List String)
    (how : CatchUp) : State :=
  let s := { s.catchUp w committed supersedes how with writes := s.writes.erase w }
  match how with
  | .done =>
    match s.adopt committed with
    | some s => { s with busy := some (.settle w committed) }
    | none => s
  | _ => s

/-- The packs a pass serves remotely, and those it has to install. -/
def planned (m : Manifest) (plan : PackRef → PackPlan) : List String :=
  (m.packs.filter fun p => plan p = .remote).map PackRef.checksum

def missing (s : State) (m : Manifest) (plan : PackRef → PackPlan) (replaced : List String)
    (background : Bool) : List String :=
  (m.packs.filter fun p =>
    (p.checksum ∉ s.installed || p.checksum ∈ replaced) && p.checksum ∉ planned m plan &&
      (background || !isHistory p)).map PackRef.checksum

def begin (s : State) (cause : Cause) (plan : PackRef → PackPlan) (replaced : List String) :
    State :=
  { s with
    remoteServed := planned s.held plan
    pass := some ⟨s.held, .installing (s.missing s.held plan replaced (cause = .history))⟩ }

/-- The pending removals are taken; without the write lock they are kept for later. -/
def takePending (s : State) (m : Manifest) (locked : Bool) : State :=
  let doomed := s.pendingPackRemovals.filter fun id => id ∉ m.packs.map PackRef.checksum
  { s with
    pendingPackRemovals := []
    pass := some ⟨m, if locked then .removing doomed else .keeping doomed⟩ }

def step (s : State) : Action → Option State
  | .written m =>
    if ∀ n ∈ s.newest, m.revision = n.revision + 1 then some { s with chain := m :: s.chain }
    else none
  | .ingest id => some { s with installed := id :: s.installed }
  | .syncApply m supersedes =>
    if s.busy.isSome ∨ m ∉ s.chain then none
    else if m.revision < s.held.revision then some s
    else if m.revision = s.held.revision then some { s with held := m }
    else some { s.apply m supersedes with busy := some (.adopt m) }
  | .syncFail supersedes => if s.busy.isSome then none else some (s.addPending supersedes)
  | .syncAdopt refreshed =>
    match s.busy with
    | some (.adopt m) =>
      let s := { s with busy := none }
      if refreshed then some ((s.adopt m).getD s) else some s
    | _ => none
  | .write kind result =>
    if s.newest = some s.held ∧ result.revision = s.held.revision + 1 ∧
        kind.writes s.held result ∧ kind.uploads ⊆ s.installed then
      some { s with chain := result :: s.chain, writes := ⟨kind, s.held, result⟩ :: s.writes }
    else none
  | .commit w committed supersedes how =>
    if s.busy.isNone ∧ w ∈ s.writes ∧ committed ∈ s.chain ∧ w.kind.settlesOn w.result committed then
      some (s.commit w committed supersedes how)
    else none
  | .settle =>
    match s.busy with
    | some (.settle w committed) => some { s.settle w committed with busy := none }
    | _ => none
  | .begin cause plan replaced =>
    if s.pass.isSome ∨ s.satisfied cause then none else some (s.begin cause plan replaced)
  | .install id =>
    match s.pass with
    | some ⟨m, .installing missing⟩ =>
      if id ∈ missing then
        some { s with installed := id :: s.installed,
                      pass := some ⟨m, .installing (missing.filter (· ≠ id))⟩ }
      else none
    | _ => none
  | .takePending locked =>
    match s.pass with
    | some ⟨m, .installing []⟩ => some (s.takePending m locked)
    | _ => none
  | .remove =>
    match s.pass with
    | some ⟨m, .removing (id :: doomed)⟩ =>
      some { s with installed := s.installed.filter (· ≠ id), pass := some ⟨m, .removing doomed⟩ }
    | _ => none
  | .putBack =>
    match s.pass with
    | some ⟨m, .removing []⟩ => some { s with pass := some ⟨m, .closing⟩ }
    | some ⟨m, .keeping []⟩ => some { s with pass := some ⟨m, .closing⟩ }
    | some ⟨m, .keeping kept⟩ =>
      some { s with pendingPackRemovals := kept, pass := some ⟨m, .closing⟩ }
    | _ => none
  | .finish =>
    match s.pass with
    | some ⟨m, .closing⟩ => some { s with packsRevision := m.revision, pass := none }
    | _ => none
  | .fail => if s.pass.isSome then some { s with pass := none } else none

/-- A handle after it was opened. A readiness from an earlier process does not count. -/
def opened (m : Manifest) (pending remoteServed installed : List String) : State where
  chain := [m]
  held := m
  applied := m
  packsRevision := if m.packs.isEmpty then m.revision else 0
  pendingPackRemovals := pending
  remoteServed := remoteServed
  installed := installed
  writes := []
  busy := none
  pass := none

/-- A pack that is there, is served remotely, or is left to the background. -/
def Served (s : State) (p : PackRef) : Prop :=
  p.checksum ∈ s.installed ∨ p.checksum ∈ s.remoteServed ∨ isHistory p

/-- Readiness is honest. -/
def Honest (s : State) : Prop := s.packsReady → ∀ p ∈ s.applied.packs, s.Served p

end State

end Readiness

end Walgit
