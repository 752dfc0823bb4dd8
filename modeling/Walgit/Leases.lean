import Walgit.ObjectStore
import Walgit.Proto
import Walgit.Runs

/-!
# Leases

A lease is an object that its holder rewrites under the version it wrote last. Whether a lease
may be taken over is judged by a contender's clock; whether a holder still has it is judged by
the version alone. Requests travel: between a contender's read and its write, and between a
holder's request and its reply, anything else may happen.
-/
namespace Walgit

structure Lease where
  holder : String
  purpose : String
  acquiredAt : Option Timestamp
  expiresAt : Option Timestamp
  epoch : ℕ
  deriving DecidableEq, Repr

namespace Leasing

open ObjectStore (PutMode)

/-- `LEASE_SKEW_TOLERANCE`, in nanoseconds. -/
def leaseSkewTolerance : ℕ := 2000000000

def makeLease (holder purpose : String) (now ttl epoch : ℕ) : Lease :=
  ⟨holder, purpose, some (.fromSystem now), some (.fromSystem (now + ttl)), epoch⟩

/-- A held lease, as its holder sees it. -/
structure Guard (κ : Type) where
  key : κ
  holder : String
  purpose : String
  version : ℕ
  expiresAt : ℕ
  epoch : ℕ
  released : Bool
  deriving DecidableEq, Repr

inductive Request where
  | put (lease : Lease) (mode : PutMode)
  | delete (version : ℕ)
  deriving DecidableEq, Repr

inductive Reply where
  | written (version : ℕ)
  | deleted
  | preconditionFailed
  | notFound
  deriving DecidableEq, Repr

/-- Who sent a request. A guard is named by the version its acquisition wrote. -/
inductive Caller where
  | acquire (holder purpose : String) (now ttl epoch : ℕ)
  | heartbeat (guard now ttl : ℕ) (background : Bool)
  | release (guard : ℕ)
  | drop (guard : ℕ)
  deriving DecidableEq, Repr

/-- A request on its way, at the store, or on its way back. -/
structure Call (κ : Type) where
  key : κ
  request : Request
  caller : Caller
  reply : Option Reply
  /-- The caller still waits for the reply. -/
  waiting : Bool
  deriving DecidableEq, Repr

structure State (κ : Type) where
  store : ObjectStore κ Lease
  guards : ℕ → Option (Guard κ)
  calls : ℕ → Option (Call κ)
  /-- Every acquisition the store accepted so far, with the version it wrote. -/
  acquired : List (κ × ℕ)

inductive CoordError where
  | leaseLost
  | store (reply : Reply)
  deriving DecidableEq, Repr

/-- What a heartbeat returns for a reply. -/
def heartbeatResult : Reply → Except CoordError Unit
  | .written _ => .ok ()
  | .preconditionFailed => .error .leaseLost
  | r => .error (.store r)

/-- A release is content when nobody holds the lease in its name. -/
def releaseResult : Reply → Except CoordError Unit
  | .deleted | .preconditionFailed | .notFound => .ok ()
  | r => .error (.store r)

inductive Action (κ : Type) where
  /-- `try_acquire` reads the lease and, if it may, sends its write. -/
  | acquire (call : ℕ) (key : κ) (holder purpose : String) (now ttl : ℕ)
  | heartbeat (call guard now ttl : ℕ) (background : Bool)
  | release (call guard : ℕ)
  | drop (call guard : ℕ) (runtime : Bool)
  /-- A request gets to the store. -/
  | arrive (call : ℕ)
  /-- A reply gets to its caller. -/
  | deliver (call : ℕ)
  /-- A caller stops waiting: an error on the way, or its future is dropped. -/
  | abandon (call : ℕ)
  deriving DecidableEq, Repr

namespace Caller

/-- The guard that sent the request. -/
def guard : Caller → Option ℕ
  | acquire .. => none
  | heartbeat guard _ _ _ | release guard | drop guard => some guard

end Caller

/-- The version a request depends on. -/
def Request.condition : Request → Option ℕ
  | .put _ .create => none
  | .put _ (.update version) | .delete version => some version

namespace State

variable {κ : Type} [DecidableEq κ] (s : State κ)

/-- No guards and nothing in flight; the store may hold leases of earlier processes. -/
def new (store : ObjectStore κ Lease) : State κ := ⟨store, fun _ => none, fun _ => none, []⟩

def setGuard (i : ℕ) (g : Option (Guard κ)) : State κ :=
  { s with guards := Function.update s.guards i g }

def setCall (id : ℕ) (c : Option (Call κ)) : State κ :=
  { s with calls := Function.update s.calls id c }

/-- Sends a request under a fresh call id. -/
def send (id : ℕ) (key : κ) (request : Request) (caller : Caller) : Option (State κ) :=
  if s.calls id = none then some (s.setCall id (some ⟨key, request, caller, none, true⟩)) else none

/-- The write of `try_acquire`, decided on what it read. -/
def acquireRequest (current : Option (ℕ × Lease)) (holder purpose : String) (now ttl : ℕ) :
    Option (Request × Caller) :=
  match current with
  | none => some (.put (makeLease holder purpose now ttl 0) .create,
      .acquire holder purpose now ttl 0)
  | some (version, existing) =>
    if (existing.expiresAt.map Timestamp.toSystem).getD 0 + leaseSkewTolerance ≤ now then
      some (.put (makeLease holder purpose now ttl (existing.epoch + 1)) (.update version),
        .acquire holder purpose now ttl (existing.epoch + 1))
    else none

/-- The store processes a request. -/
def arrive (id : ℕ) (c : Call κ) : State κ :=
  match c.request with
  | .put lease mode =>
    match s.store.put c.key lease mode with
    | none => s.setCall id (some { c with reply := some .preconditionFailed })
    | some store =>
      { s with
        store := store
        acquired := if c.caller.guard.isNone then (c.key, s.store.next) :: s.acquired
          else s.acquired }.setCall id (some { c with reply := some (.written s.store.next) })
  | .delete version =>
    { s with store := s.store.delete c.key version }.setCall id (some { c with
      reply := some (
        if s.store.version c.key = some version then .deleted
        else if s.store.version c.key = none then .notFound
        else .preconditionFailed) })

/-- A caller learns what became of its request. -/
def deliver (c : Call κ) (reply : Reply) : State κ :=
  match c.caller, reply with
  | .acquire holder purpose now ttl epoch, .written version =>
    s.setGuard version (some ⟨c.key, holder, purpose, version, now + ttl, epoch, false⟩)
  | .heartbeat i now ttl _, .written version =>
    s.setGuard i ((s.guards i).map fun g => { g with version := version, expiresAt := now + ttl })
  | .heartbeat i _ _ background, .preconditionFailed =>
    s.setGuard i ((s.guards i).map fun g => { g with released := g.released || background })
  | _, _ => s

def step (s : State κ) : Action κ → Option (State κ)
  | .acquire id key holder purpose now ttl =>
    match acquireRequest (s.store.objects key) holder purpose now ttl with
    | none => some s
    | some (request, caller) => s.send id key request caller
  | .heartbeat id i now ttl background => do
    let g ← s.guards i
    -- The background loop stops at a released guard.
    if background && g.released then none
    else
      let g := { g with epoch := g.epoch + 1 }
      (s.setGuard i (some g)).send id g.key
        (.put (makeLease g.holder g.purpose now ttl g.epoch) (.update g.version))
        (.heartbeat i now ttl background)
  | .release id i => do
    let g ← s.guards i
    (s.setGuard i none).send id g.key (.delete g.version) (.release i)
  | .drop id i runtime => do
    let g ← s.guards i
    if g.released || !runtime then some (s.setGuard i none)
    else (s.setGuard i none).send id g.key (.delete g.version) (.drop i)
  | .arrive id => do
    let c ← s.calls id
    if c.reply = none then some (s.arrive id c) else none
  | .deliver id => do
    let c ← s.calls id
    let reply ← c.reply
    if c.waiting then some ((s.deliver c reply).setCall id none) else none
  | .abandon id => do
    let c ← s.calls id
    some (s.setCall id (some { c with waiting := false }))

/-- The guard's next heartbeat would be accepted. -/
def extendable (g : Guard κ) : Bool := s.store.accepts g.key (.update g.version)

end State

end Leasing

end Walgit
