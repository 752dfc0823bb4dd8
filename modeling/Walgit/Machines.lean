import Walgit.Replicas
import Walgit.WarmFold

/-!
# Instances

The instances that serve a repository: each has a copy in its cache directory and a
handle over it, which syncs with the store, publishes and takes checkpoints. Every call
that can fail halfway fails at a place the run names; what it wrote until then stays.
-/
namespace Walgit

/-- `RepoState`, kept in memory and in the state file. -/
structure RepoState where
  appliedSeq : ℕ
  revision : ℕ
  deriving DecidableEq, Repr

/-- The copy in the cache directory. -/
structure Disk where
  refs : RefState
  saved : RepoState
  deriving DecidableEq

def Disk.init : Disk := ⟨.fresh, ⟨0, 0⟩⟩

/-- `RepoHandle`: the manifest it holds and how far its copy has come. -/
structure Handle where
  site : ℕ
  manifest : Manifest
  version : Option ℕ
  state : RepoState
  forge : Option ForgeState
  deriving DecidableEq

/-- A handle with the copy it works on. -/
structure Copy where
  disk : Disk
  handle : Handle
  deriving DecidableEq

/-- Where `apply_delta` fails: before it touches the copy, while it writes refs (before or after
HEAD), while it reads the log, when it saves its state, or when it opens the copy again. -/
inductive Fault where
  | early
  | load (head : Bool)
  | fetch
  | replay (head : Bool)
  | save
  | refresh
  deriving DecidableEq, Repr

/-- Where the local part of a publish fails. -/
inductive CommitFault where
  | catchUp (fault : Fault)
  /-- At the `k`th transaction; `plain` if git had already moved its refs. -/
  | apply (k : ℕ) (plain : Bool)
  | refresh
  | save
  deriving DecidableEq, Repr

def CommitFault.delta : Option CommitFault → Option Fault
  | some (.catchUp fault) => some fault
  | _ => none

/-- Whether the local part of a commit writes the state file; a seal never does. -/
def Job.savesState (job : Job) (fault : Option CommitFault) : Bool :=
  match job with
  | .sealPacks .. => false
  | _ => fault ≠ some .save

/-- The transaction that `apply_entries` takes from an entry. -/
def LogEntry.refTxn (e : LogEntry) : Option RefTransaction :=
  match e.kind with
  | .push | .refUpdate => e.txn
  | _ => none

def World.fetchSegment (w : World) (s : LogSegmentRef) : Option (List LogEntry) :=
  match w.store.objects s.key with
  | some (_, .segment entries) => some entries
  | _ => none

/-- The entries in `(after, last]` of the segments a manifest lists. -/
def World.readLog (w : World) (m : Manifest) (after last : ℕ) : Option (List LogEntry) := do
  let segments := m.logSegments.filter fun s => after < s.lastSeq && s.firstSeq ≤ last
  let fetched ← segments.mapM w.fetchSegment
  pure (sortByKey LogEntry.seq (fetched.flatten.filter fun e => after < e.seq && e.seq ≤ last))

namespace Copy

variable (c : Copy)

def setRefs (refs : RefState) : Copy := { c with disk := { c.disk with refs := refs } }

def setState (state : RepoState) : Copy := { c with handle := { c.handle with state := state } }

def setForge (forge : Option ForgeState) : Copy :=
  { c with handle := { c.handle with forge := forge } }

/-- The in-memory state, and the state file if writing it works. -/
def record (state : RepoState) (saves : Bool) : Copy where
  disk := { c.disk with saved := if saves then state else c.disk.saved }
  handle := { c.handle with state := state }

/-- The next sync reads the manifest unconditionally. -/
def forget : Copy := { c with handle := { c.handle with version := none } }

/-- `adopt_manifest`: never back to an older revision. -/
def adopt (m : Manifest) (version : ℕ) : Option Copy :=
  if m.revision < c.handle.manifest.revision then none
  else some { c with handle := { c.handle with manifest := m, version := some version } }

/-- Refs written over the copy's; a failed write may leave HEAD as it was. -/
def writeRefs (refs : RefState) (head : Bool) : Copy :=
  c.setRefs { refs with headTarget := if head then refs.headTarget else c.disk.refs.headTarget }

def loadCheckpoint (m : Manifest) (fault : Option Fault) : Copy × Bool :=
  match m.checkpoint with
  | none => (c, true)
  | some cp =>
    if cp.seq ≤ c.handle.state.appliedSeq then (c, true)
    else
      let refs := c.disk.refs.loadRefSnapshot cp.refs
      match fault with
      | some (.load head) => (c.writeRefs refs head, false)
      | _ => ((c.setRefs refs).setState { c.handle.state with appliedSeq := cp.seq }, true)

section Chars

variable [Text.CharTables]

def replayLog (read : ℕ → ℕ → Option (List LogEntry)) (after last : ℕ) (fault : Option Fault) :
    Copy × Bool :=
  match read after last with
  | none => (c, false)
  | some entries =>
    if fault = some .fetch then (c, false)
    else
      match c.disk.refs.applyRefTxnsOffline (entries.filterMap LogEntry.refTxn) with
      | .error _ => (c, false)
      | .ok refs =>
        match fault with
        | some (.replay head) => (c.writeRefs refs head, false)
        | _ =>
          ((c.setRefs refs).setForge (c.handle.forge.map fun s => s.foldEntries after entries), true)

/-- Brings the copy to a manifest; the flag says whether it got there. -/
def applyDelta (read : ℕ → ℕ → Option (List LogEntry)) (m : Manifest) (fault : Option Fault) :
    Copy × Bool :=
  if fault = some .early then (c, false)
  else
    let r := c.loadCheckpoint m fault
    if !r.2 then r
    else
      let after := r.1.handle.state.appliedSeq
      let r := if after < m.headSeq then r.1.replayLog read after m.headSeq fault else r
      if !r.2 then r
      else
        (r.1.record ⟨m.headSeq, m.revision⟩ (fault ≠ some .save),
          fault ≠ some .save && fault ≠ some .refresh)

/-- `sync_locked_inner` with the manifest the store served. -/
def sync (read : ℕ → ℕ → Option (List LogEntry)) (m : Manifest) (version : ℕ)
    (fault : Option Fault) : Copy × Bool :=
  if c.handle.version = some version then (c, true)
  else if m.revision < c.handle.manifest.revision then (c, true)
  else if c.handle.version.isSome && m.revision = c.handle.manifest.revision then
    ((c.adopt m version).getD c, true)
  else
    let r := c.applyDelta read m fault
    if r.2 then ((r.1.adopt m version).getD r.1, true) else r

/-- The copy from the store again, whatever it had applied. -/
def rematerialize (read : ℕ → ℕ → Option (List LogEntry)) (m : Manifest) (version : ℕ)
    (fault : Option Fault) : Copy × Bool :=
  let r := (c.setState { c.handle.state with appliedSeq := 0 }).applyDelta read m fault
  if r.2 then ((r.1.adopt m version).getD r.1, true) else r

/-- A handle over the copy of a site, opened at the manifest the store served. -/
def opened (site : ℕ) (disk : Disk) (read : ℕ → ℕ → Option (List LogEntry)) (m : Manifest)
    (version : ℕ) (fault : Option Fault) : Copy × Bool :=
  let c : Copy := ⟨disk, ⟨site, m, some version, disk.saved, none⟩⟩
  if disk.saved.appliedSeq < m.headSeq || disk.saved.revision ≠ m.revision then
    c.applyDelta read m fault
  else (c, true)

/-- The accepted transactions of a batch, applied with git one after another. -/
def applyBatch (ts : List RefTransaction) (fault : Option CommitFault) : Copy × Bool :=
  match fault with
  | some (.apply k plain) =>
    let r := c.disk.refs.applyRefTxns (ts.take k)
    if !r.2 then (c.setRefs r.1, false)
    else
      match ts[k]? with
      | none => (c.setRefs r.1, true)
      | some t =>
        if plain && (r.1.applyRefTxn t).isSome then
          (c.setRefs ((t.updates.filter RefUpdate.plain).foldl RefState.updateRef r.1), false)
        else (c.setRefs r.1, false)
  | _ =>
    let r := c.disk.refs.applyRefTxns ts
    (c.setRefs r.1, r.2)

/-- The local part of a committed batch. -/
def settleBatch (read : ℕ → ℕ → Option (List LogEntry)) (ts : List RefTransaction)
    (m : Manifest) (version lastSeq : ℕ) (fault : Option CommitFault) : Copy :=
  let applied := c.handle.state.appliedSeq
  let r :=
    if applied < m.headSeq && lastSeq < m.headSeq then
      c.applyDelta read m (CommitFault.delta fault)
    else if lastSeq ≤ applied || m.headSeq ≠ lastSeq then (c, true)
    else c.applyBatch ts fault
  if r.2 && fault ≠ some .refresh then
    match r.1.adopt m version with
    | some c => c.record ⟨m.headSeq, m.revision⟩ (fault ≠ some .save)
    | none => r.1
  else r.1.forget

/-- The local part of a committed compaction, seal or control write at `seq`. -/
def settleOne (read : ℕ → ℕ → Option (List LogEntry)) (job : Job) (m : Manifest)
    (version seq : ℕ) (fault : Option CommitFault) : Copy :=
  let behind := seq < m.headSeq && c.handle.state.appliedSeq < m.headSeq
  let r :=
    if behind && !job.isControl then c.applyDelta read m (CommitFault.delta fault) else (c, true)
  if r.2 then
    match r.1.adopt m version with
    | some c =>
      c.record ⟨if job.isControl then seq else m.headSeq, m.revision⟩ (job.savesState fault)
    | none => r.1
  else if job.isCompact then r.1.forget
  else r.1

/-- `forge_ensure`: the forge state at the held manifest's head, resumed while the log still
covers it, else from the checkpoint. -/
def forgeEnsure (read : ℕ → ℕ → Option (List LogEntry)) : Option Copy :=
  let m := c.handle.manifest
  if c.handle.forge.any fun s => m.headSeq ≤ s.seq then some c
  else
    let start : ForgeState × Bool :=
      match c.handle.forge with
      | some s => if max m.minSeq 1 ≤ s.seq + 1 then (s, false) else (checkpointForge m, true)
      | none => (checkpointForge m, true)
    (read start.1.seq m.headSeq).map fun entries =>
      let kept : ForgeState :=
        match c.handle.forge with
        | none => start.1
        | some s => if start.2 && s.seq < start.1.seq then start.1 else s
      c.setForge (some (kept.foldEntries start.1.seq entries))
where
  /-- The forge state a manifest's checkpoint has; an empty one if it stored none. -/
  checkpointForge (m : Manifest) : ForgeState :=
    match m.checkpoint with
    | none => .empty
    | some cp =>
      match cp.forge with
      | some history => .fromHistory history
      | none => { ForgeState.empty with seq := cp.seq }

end Chars

end Copy

end Walgit
