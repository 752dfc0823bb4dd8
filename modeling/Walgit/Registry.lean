import Mathlib.Data.List.GetD
import Walgit.Chain
import Walgit.Runs

/-!
# The registries of one repository id

Any number of hosts open, create and delete one repository over one store. A repository lives
from the PUT that creates its manifest; lives are counted in that order.
-/
namespace Walgit

namespace Keys

def manifest : String := "manifest.pb"

end Keys

/-- An object under the repository's prefix, with the life it was written in. -/
structure StoredObject where
  life : ℕ
  manifest : Option Manifest

/-- A created repository and the call that created it. -/
structure Life where
  call : ℕ
  manifest : Manifest

structure RegistryHandle where
  host : ℕ
  life : ℕ
  deriving DecidableEq

inductive OpenKind where
  | openRepo
  | createWithAccess (access : Option RepoAccess)
  deriving DecidableEq

inductive OpenResult where
  | ok (handle : ℕ)
  | notFound
  | alreadyExists
  /-- The store or the file system failed, or the call was dropped. -/
  | failed
  deriving DecidableEq

inductive OpenPhase where
  | looking
  | waiting
  /-- Inside the gate, without a handle. -/
  | entered
  /-- The manifest was read or created. -/
  | held (life : ℕ)
  | localised (life : ℕ)
  | done (r : OpenResult)
  deriving DecidableEq

/-- A call of `open` or `create_with_access`. -/
structure OpenCall where
  host : ℕ
  kind : OpenKind
  phase : OpenPhase
  /-- The life that the call's own PUT created. -/
  created : Option ℕ

/-- The call holds the gate of its host. -/
def OpenPhase.gated : OpenPhase → Bool
  | .entered | .held _ | .localised _ => true
  | _ => false

inductive DeletePhase where
  | checked
  | dropped
  /-- The manifest is removed; what is listed after a key is deleted, page by page. -/
  | sweeping (after : Option String) (page : List String)
  | swept
  | done
  deriving DecidableEq

/-- A call of `delete`. -/
structure Deletion where
  host : ℕ
  phase : DeletePhase
  /-- How many lives had begun when it removed the manifest. -/
  removed : Option ℕ

structure Registries where
  store : SortedMap String StoredObject
  /-- Every repository created so far, oldest first. -/
  lives : List Life
  handles : List RegistryHandle
  repos : ℕ → Option ℕ
  /-- The hosts whose gate is taken. -/
  opening : ℕ → Bool
  /-- The life that a host's local directory was last written for. -/
  dirs : ℕ → Option ℕ
  calls : List OpenCall
  deletions : List Deletion

inductive RegistryEvent where
  | call (host : ℕ) (kind : OpenKind)
  | lookup (k : ℕ)
  | enter (k : ℕ)
  | get (k : ℕ)
  | put (k : ℕ) (now : Timestamp) (writer : String) (answered : Bool)
  | initLocal (k : ℕ)
  | insert (k : ℕ)
  | fail (k : ℕ)
  | sync (h : ℕ)
  | write (h : ℕ) (key : String)
  | commit (h : ℕ) (m : Manifest)
  | evict (host : ℕ)
  | delete (host : ℕ)
  | drop (d : ℕ)
  | removeManifest (d : ℕ)
  | listPage (d n : ℕ)
  | deleteListed (d : ℕ)
  | removeDir (d : ℕ)
  | failDelete (d : ℕ)

namespace Registries

def init : Registries where
  store := .empty
  lives := []
  handles := []
  repos _ := none
  opening _ := false
  dirs _ := none
  calls := []
  deletions := []

variable (s : Registries)

def stored : Option StoredObject := s.store.find? Keys.manifest

/-- The keys listed after one. -/
def listed (after : Option String) : List String :=
  s.store.keys.filter fun key => after.all (· < key)

def setCall (k : ℕ) (c : OpenCall) : Registries := { s with calls := s.calls.set k c }

def setDeletion (d : ℕ) (x : Deletion) : Registries := { s with deletions := s.deletions.set d x }

/-- The call ends and gives its gate back. -/
def endCall (k : ℕ) (c : OpenCall) (r : OpenResult) : Registries :=
  { s.setCall k { c with phase := .done r } with
    opening := if c.phase.gated then Function.update s.opening c.host false else s.opening }

/-- A step inside one call of `open` or `create_with_access`. -/
def stepCall (k : ℕ) (c : OpenCall) : RegistryEvent → Option Registries
  | .lookup _ =>
    match c.phase, s.repos c.host with
    | .looking, some h => some (s.endCall k c (.ok h))
    | .looking, none => some (s.setCall k { c with phase := .waiting })
    | _, _ => none
  | .enter _ =>
    if s.opening c.host then none
    else match c.phase, s.repos c.host with
      | .waiting, some h => some (s.endCall k c (.ok h))
      | .waiting, none => some { s.setCall k { c with phase := .entered } with
          opening := Function.update s.opening c.host true }
      | _, _ => none
  | .get _ =>
    match c.kind, c.phase, s.stored with
    | .openRepo, .entered, some x => some (s.setCall k { c with phase := .held x.life })
    | .openRepo, .entered, none => some (s.endCall k c .notFound)
    | _, _, _ => none
  | .put _ now writer answered =>
    match c.kind, c.phase, s.stored with
    | .createWithAccess _, .entered, some _ =>
      some (s.endCall k c (if answered then .alreadyExists else .failed))
    | .createWithAccess access, .entered, none =>
      let life := s.lives.length
      let m := createdManifest access now writer
      let c := { c with created := some life }
      let s := { s with
        store := s.store.insert Keys.manifest ⟨life, some m⟩
        lives := s.lives ++ [Life.mk k m] }
      some (if answered then s.setCall k { c with phase := .held life } else s.endCall k c .failed)
    | _, _, _ => none
  | .initLocal _ =>
    match c.phase with
    | .held life => some { s.setCall k { c with phase := .localised life } with
        dirs := Function.update s.dirs c.host (some life) }
    | _ => none
  | .insert _ =>
    match c.phase with
    | .localised life =>
      let h := s.handles.length
      some { s.endCall k c (.ok h) with
        handles := s.handles ++ [⟨c.host, life⟩]
        repos := Function.update s.repos c.host (some h) }
    | _ => none
  | .fail _ =>
    match c.phase with
    | .done _ => none
    | _ => some (s.endCall k c .failed)
  | _ => none

/-- A step inside one deletion. -/
def stepDeletion (d : ℕ) (x : Deletion) : RegistryEvent → Option Registries
  | .drop _ =>
    match x.phase with
    | .checked => some { s.setDeletion d { x with phase := .dropped } with
        repos := Function.update s.repos x.host none }
    | _ => none
  | .removeManifest _ =>
    match x.phase with
    | .dropped =>
      let x := { x with phase := .sweeping none [], removed := some s.lives.length }
      some { s.setDeletion d x with store := s.store.erase Keys.manifest }
    | _ => none
  | .listPage _ n =>
    match x.phase with
    | .sweeping after [] =>
      let page := (s.listed after).take (n + 1)
      let phase := if page = [] then .swept else .sweeping after page
      some (s.setDeletion d { x with phase := phase })
    | _ => none
  | .deleteListed _ =>
    match x.phase with
    | .sweeping _ (key :: page) =>
      some { s.setDeletion d { x with phase := .sweeping (some key) page } with
        store := s.store.erase key }
    | _ => none
  | .removeDir _ =>
    match x.phase with
    | .swept => some { s.setDeletion d { x with phase := .done } with
        dirs := Function.update s.dirs x.host none }
    | _ => none
  | .failDelete _ =>
    match x.phase with
    | .done => none
    | _ => some (s.setDeletion d { x with phase := .done })
  | _ => none

/-- One step of the hosts; `none` when it is not enabled. -/
def step (s : Registries) (e : RegistryEvent) : Option Registries :=
  match e with
  | .call host kind => some { s with calls := s.calls ++ [⟨host, kind, .looking, none⟩] }
  | .lookup k | .enter k | .get k | .put k _ _ _ | .initLocal k | .insert k | .fail k =>
    s.calls[k]?.bind fun c => s.stepCall k c e
  | .sync h => do
    -- A manifest that is gone leaves the handle as it is.
    let handle ← s.handles[h]?
    let x ← s.stored
    some { s with
      handles := s.handles.set h { handle with life := x.life }
      dirs := Function.update s.dirs handle.host (some x.life) }
  | .write h key => do
    let handle ← s.handles[h]?
    if key = Keys.manifest then none
    else some { s with store := s.store.insert key ⟨handle.life, none⟩ }
  | .commit h m => do
    -- Versions are never used twice, so the condition fails on another life's manifest.
    let handle ← s.handles[h]?
    let x ← s.stored
    if x.life ≠ handle.life then none
    else some { s with store := s.store.insert Keys.manifest ⟨x.life, some m⟩ }
  | .evict host => some { s with
      repos := Function.update s.repos host none
      dirs := Function.update s.dirs host none }
  | .delete host =>
    match s.stored with
    | some _ => some { s with deletions := s.deletions ++ [⟨host, .checked, none⟩] }
    | none => some s
  | .drop d | .removeManifest d | .listPage d _ | .deleteListed d | .removeDir d | .failDelete d =>
    s.deletions[d]?.bind fun x => s.stepDeletion d x e

end Registries

end Walgit
