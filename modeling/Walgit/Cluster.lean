import Walgit.Machines

/-!
# The whole system

Publishers over the store, run by the handles of any number of instances. A handle's
call is one step where the code holds `sync_mutex`; what it read before and does after
is a step of its own, so anything may happen in between.
-/
namespace Walgit

/-- What `process_batch` captures under the lock: the manifest, its version and the refs. -/
structure Pin where
  manifest : Manifest
  version : Option ℕ
  refs : RefState
  deriving DecidableEq

/-- A coherent view of the copy that a checkpoint is made of. -/
structure PublicationView where
  handle : ℕ
  manifest : Manifest
  refs : RefState
  deriving DecidableEq

/-- A committed metadata write that its handle has not adopted yet. -/
structure Adoption where
  handle : ℕ
  job : MetaJob
  manifest : Manifest
  version : ℕ
  deriving DecidableEq

structure Cluster where
  world : World
  disks : ℕ → Option Disk
  handles : ℕ → Option Handle
  nextHandle : ℕ
  /-- The handle each site serves requests with. -/
  registry : ℕ → Option ℕ
  /-- The handle a publisher's task runs on. -/
  owner : ℕ → Option ℕ
  pins : ℕ → Option Pin
  /-- Committed tasks whose local part is done. -/
  settled : List ℕ
  views : List PublicationView
  /-- Checkpoints that were written to the store, with the manifest they fold. -/
  drafts : List (Manifest × CheckpointRef)
  adoptions : List Adoption

inductive Deed where
  | store (a : Action)
  | start (h t : ℕ) (job : Job)
  | pin (t : ℕ)
  | capture (t : ℕ) (policy : PackPolicy) (writer : String) (startedAt : Timestamp)
      (lastEntryTime : Option ℕ)
  | settle (t : ℕ) (fault : Option CommitFault)
  | finish (t : ℕ) (clock : ℕ → Timestamp)
  | sync (h : ℕ) (fault : Option Fault)
  | rematerialize (h : ℕ) (fault : Option Fault)
  | openRepo (site : ℕ) (fault : Option Fault)
  | evict (site : ℕ)
  | stop (site : ℕ)
  | forgeEnsure (h : ℕ)
  | view (h : ℕ)
  | draft (h k : ℕ) (createdAt firstStateAt asOf : Option Timestamp)
  | rewrite (h : ℕ) (job : MetaJob) (policy : PackPolicy) (writer : String) (now : Timestamp)
      (reply : Reply)
  | adopt (k : ℕ) (saves : Bool)

/-- The publisher's steps that only talk to the store. -/
def Action.remote : Action → Bool
  | .start .. | .capture .. | .finish .. | .rewrite .. => false
  | _ => true

def Job.hasForge : Job → Bool
  | .batch reqs => reqs.any fun req => !req.forge.isEmpty
  | _ => false

/-- `forge_fold` of a committed batch, which is built a second time. -/
def Handle.foldTask [Text.CharTables] (handle : Handle) (task : Task) (clock : ℕ → Timestamp) :
    Handle :=
  match task.phase, task.job with
  | .committed a σ _ _, .batch reqs =>
    let entries := (⟨task.job, a, σ⟩ : Origin).rebuilt reqs clock
    { handle with forge := handle.forge.map fun f =>
        f.foldEntries a.basis.manifest.headSeq entries }
  | _, _ => handle

/-- The checkpoint that a view becomes. -/
def PublicationView.draft (v : PublicationView) (forge : Option ForgeState)
    (createdAt firstStateAt asOf : Option Timestamp) : Option CheckpointRef :=
  let seq := v.manifest.headSeq
  let cp (history : Option ForgeHistory) : CheckpointRef :=
    ⟨seq, createdAt, firstStateAt, asOf, v.refs, history⟩
  if 0 < v.manifest.forgeNextNumber then
    match forge with
    | some f => if seq ≤ f.seq then some (cp (some (f.historyUpto seq))) else none
    | none => none
  else some (cp none)

/-- What adopting a committed metadata write changes besides the manifest. -/
def Copy.adoptWrite (c : Copy) (p : Adoption) (saves : Bool) : Copy :=
  match c.adopt p.manifest p.version with
  | none => c
  | some c =>
    match p.job with
    | .checkpoint .. => c.record ⟨p.manifest.headSeq, p.manifest.revision⟩ saves
    | .annotate .. => c.record { c.handle.state with revision := p.manifest.revision } saves
    | .reclassify .. => c.setState { c.handle.state with revision := p.manifest.revision }

namespace Cluster

/-- A repository just created, before any instance has opened it. -/
def created (m : Manifest) : Cluster where
  world := .created m
  disks _ := none
  handles _ := none
  nextHandle := 0
  registry _ := none
  owner _ := none
  pins _ := none
  settled := []
  views := []
  drafts := []
  adoptions := []

variable (s : Cluster)

/-- The handle with the copy of its site. -/
def copy (h : ℕ) : Option Copy := do
  let handle ← s.handles h
  let disk ← s.disks handle.site
  pure ⟨disk, handle⟩

def setCopy (h : ℕ) (c : Copy) : Cluster :=
  { s with
    disks := Function.update s.disks c.handle.site (some c.disk)
    handles := Function.update s.handles h (some c.handle) }

/-- The handle is the one its site serves requests with. -/
def serves (h : ℕ) : Bool := (s.handles h).any fun handle => s.registry handle.site = some h

/-- The pair a reader is served from. -/
def fetchView (h : ℕ) : Option (Manifest × RefState) :=
  (s.copy h).map fun c => (c.handle.manifest, c.disk.refs)

/-- A checkpoint is committed only after it was written. -/
def drafted : MetaJob → Bool
  | .checkpoint view cp => (view, cp) ∈ s.drafts
  | _ => true

section Step

variable [Text.CharTables] (cfg : Config)

/-- The local part of a committed task. -/
def settleTask (task : Task) (fault : Option CommitFault) (c : Copy) : Option Copy :=
  match task.phase with
  | .committed a σ m version =>
    let read := s.world.readLog m
    match task.job with
    | .batch reqs =>
      let members := accepted reqs (verifyBatch a.basis reqs).1
      some (c.settleBatch read (members.map fun p => p.1.txn) m version σ.lastSeq fault)
    | job => some (c.settleOne read job m version σ.firstSeq fault)
  | _ => none

/-- One step of the system; `none` when it is not enabled. -/
def step (s : Cluster) : Deed → Option Cluster
  | .store a =>
    if a.remote then (Walgit.step cfg s.world a).map fun w => { s with world := w } else none
  | .start h t job => do
    let _ ← s.handles h
    let w ← Walgit.step cfg s.world (.start t job)
    some { s with
      world := w
      owner := Function.update s.owner t (some h)
      pins := Function.update s.pins t none }
  | .pin t => do
    let task ← s.world.tasks t
    let c ← (s.owner t).bind s.copy
    match task.phase with
    | .ready =>
      let p : Pin := ⟨c.handle.manifest, c.handle.version, c.disk.refs⟩
      some { s with pins := Function.update s.pins t (some p) }
    | _ => none
  | .capture t policy writer startedAt lastEntryTime => do
    let task ← s.world.tasks t
    let handle ← (s.owner t).bind s.handles
    let p ← s.pins t
    -- A batch with forge events brings the forge state to the held head first.
    if task.job.hasForge && !handle.forge.any (fun f => p.manifest.headSeq ≤ f.seq) then none
    else
      let basis : Basis :=
        ⟨p.manifest, p.version, .new p.refs, handle.forge.getD .empty, lastEntryTime⟩
      let w ← Walgit.step cfg s.world (.capture t ⟨basis, policy, writer, startedAt⟩)
      some { s with world := w, pins := Function.update s.pins t none }
  | .settle t fault => do
    let task ← s.world.tasks t
    let h ← s.owner t
    let c ← s.copy h
    if t ∈ s.settled then none
    else
      let c ← s.settleTask task fault c
      some { s.setCopy h c with settled := t :: s.settled }
  | .finish t clock => do
    let task ← s.world.tasks t
    let h ← s.owner t
    let handle ← s.handles h
    if t ∉ s.settled then none
    else
      let w ← Walgit.step cfg s.world (.finish t)
      some { s with
        world := w
        handles := Function.update s.handles h (some (handle.foldTask task clock)) }
  | .sync h fault => do
    let c ← s.copy h
    let (m, v) ← s.world.current
    some (s.setCopy h (c.sync (s.world.readLog m) m v fault).1)
  | .rematerialize h fault => do
    let c ← s.copy h
    let (m, v) ← s.world.current
    some (s.setCopy h (c.rematerialize (s.world.readLog m) m v fault).1)
  | .openRepo site fault =>
    if (s.registry site).isSome then none
    else do
      let (m, v) ← s.world.current
      let r := Copy.opened site ((s.disks site).getD .init) (s.world.readLog m) m v fault
      if r.2 then
        some { s.setCopy s.nextHandle r.1 with
          nextHandle := s.nextHandle + 1
          registry := Function.update s.registry site (some s.nextHandle) }
      else some { s with disks := Function.update s.disks site (some r.1.disk) }
  | .evict site =>
    some { s with
      disks := Function.update s.disks site none
      registry := Function.update s.registry site none }
  | .stop site =>
    some { s with
      handles := fun h => (s.handles h).filter fun handle => handle.site ≠ site
      registry := Function.update s.registry site none }
  | .forgeEnsure h => do
    let c ← s.copy h
    let c ← c.forgeEnsure (s.world.readLog c.handle.manifest)
    some (s.setCopy h c)
  | .view h => do
    let c ← s.copy h
    let (m, v) ← s.world.current
    let r := c.sync (s.world.readLog m) m v none
    if r.2 then
      some { s.setCopy h r.1 with
        views := ⟨h, r.1.handle.manifest, r.1.disk.refs⟩ :: s.views }
    else none
  | .draft h k createdAt firstStateAt asOf => do
    let handle ← s.handles h
    let v ← s.views[k]?
    if v.handle ≠ h then none
    else
      let cp ← v.draft handle.forge createdAt firstStateAt asOf
      some { s with drafts := (v.manifest, cp) :: s.drafts }
  | .rewrite h job policy writer now reply => do
    let handle ← s.handles h
    let version ← handle.version
    if !s.drafted job then none
    else
      let w ← Walgit.step cfg s.world
        (.rewrite job handle.manifest version policy writer now reply)
      let landed := reply = .delivered && s.world.store.accepts .manifest (.update version)
      match job.manifest handle.manifest policy writer now with
      | some m => some { s with
          world := w
          adoptions := if landed then ⟨h, job, m, s.world.store.next⟩ :: s.adoptions
            else s.adoptions }
      | none => none
  | .adopt k saves => do
    let p ← s.adoptions[k]?
    let c ← s.copy p.handle
    some { s.setCopy p.handle (c.adoptWrite p saves) with adoptions := s.adoptions.eraseIdx k }

end Step

end Cluster

end Walgit
