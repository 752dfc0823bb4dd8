import Walgit.Growth

/-!
# The events bridge

`catch_up` publishes what was committed after a durable cursor. It reads the manifest, the
cursor and the log one after the other and then delivers to the sinks and moves the cursor,
while publishers and checkpoints go on; any number of bridges may do so at once.
-/
namespace Walgit

open Text

inductive RefAction where
  | create
  | update
  | delete
  deriving DecidableEq, Repr

/-- An object id that stands for no object. -/
def absent (oid : String) : Bool := isNullOid oid

/-- `none` for a pair that is no transition. -/
def RefAction.classify (old new : String) : Option RefAction :=
  match absent old, absent new with
  | true, true => none
  | true, false => some .create
  | false, true => some .delete
  | false, false => if old = new then none else some .update

def zeroLike (other : String) : String := String.ofList (List.replicate other.utf8ByteSize '0')

def refType (name : String) : String :=
  if startsWith "refs/heads/" name then "branch"
  else if startsWith "refs/tags/" name then "tag"
  else ""

structure WalgitExt where
  schemaVersion : ℕ
  seq : String
  entryKind : String
  requestId : String
  deriving DecidableEq, Repr

structure RefEvent where
  action : RefAction
  refType : String
  refName : String
  old : String
  new : String
  pusher : String
  correlationId : String
  repo : String
  walgit : WalgitExt
  deriving DecidableEq, Repr

/-- The event of one update of an entry, if it is a transition of a ref. -/
def RefUpdate.event (repo kind : String) (entry : LogEntry) (u : RefUpdate) : Option RefEvent :=
  if u.newSymbolicTarget ≠ "" then none
  else
    (RefAction.classify u.oldOid u.newOid).map fun action =>
      let requestId := (entry.metadata.find? "request_id").getD ""
      { action
        refType := refType u.name
        refName := u.name
        old := if action = .create then zeroLike u.newOid else u.oldOid
        new := if action = .delete then zeroLike u.oldOid else u.newOid
        pusher := (entry.metadata.find? "principal").getD ""
        correlationId := requestId
        repo
        walgit := ⟨1, toString entry.seq, kind, requestId⟩ }

def LogEntry.refEvents (repo : String) (entry : LogEntry) : List RefEvent :=
  let events (kind : String) : List RefEvent :=
    match entry.txn with
    | some txn => txn.updates.filterMap (RefUpdate.event repo kind entry)
    | none => []
  match entry.kind with
  | .push => events "push"
  | .refUpdate => events "ref_update"
  | _ => []

def refsFromEntries (repo : String) (entries : List LogEntry) : List RefEvent :=
  entries.flatMap (LogEntry.refEvents repo)

/-- A pair of ids is a transition unless both stand for no object or they are the same object. -/
theorem RefAction.classify_isSome {old new : String} :
    (RefAction.classify old new).isSome ↔ ¬(absent old = true ∧ absent new = true) ∧
      ((absent old = true ∨ absent new = true) ∨ old ≠ new) := by
  unfold RefAction.classify
  cases absent old <;> cases absent new <;> by_cases heq : old = new <;> simp [heq]

/-- Every update that moves a ref has its event. -/
theorem mem_refsFromEntries {repo : String} {e : LogEntry} {txn : RefTransaction} {u : RefUpdate}
    (hkind : e.kind = .push ∨ e.kind = .refUpdate) (htxn : e.txn = some txn)
    (hu : u ∈ txn.updates) (htarget : u.newSymbolicTarget = "")
    (hmoves : (RefAction.classify u.oldOid u.newOid).isSome) :
    ∃ ev ∈ refsFromEntries repo [e], ev.refName = u.name ∧ ev.walgit.seq = toString e.seq := by
  obtain ⟨action, haction⟩ := Option.isSome_iff_exists.mp hmoves
  simp only [refsFromEntries, List.flatMap_cons, List.flatMap_nil, List.append_nil]
  rcases hkind with hkind | hkind <;>
    simp only [LogEntry.refEvents, hkind, htxn] <;>
    exact ⟨_, List.mem_filterMap.mpr ⟨u, hu, by simp [RefUpdate.event, htarget, haction]; rfl⟩,
      rfl, rfl⟩

/-- How far one `catch_up` has come; `cursor` is what it read, with its version. -/
inductive CatchUp where
  | opened (manifest : Manifest)
  | located (head start : ℕ) (cursor : Option (ℕ × ℕ))
  | delivering (head start : ℕ) (cursor : Option (ℕ × ℕ)) (batch : List RefEvent)
      (pending : List ℕ)
  deriving DecidableEq

/-- The store with the cursor object, the calls in progress, what each sink received and the
gaps that were reported. -/
structure Bridges where
  world : World
  /-- `published_seq` and the version of the object. -/
  cursor : Option (ℕ × ℕ)
  nextVersion : ℕ
  /-- Where the call that created the cursor began. -/
  origin : Option ℕ
  calls : ℕ → Option CatchUp
  delivered : List (ℕ × RefEvent)
  gaps : List (ℕ × ℕ)

inductive BridgeEvent where
  | wal (a : Action)
  /-- A call has synced; its handle holds the `i`th newest manifest. -/
  | opened (k i : ℕ)
  | locate (k : ℕ)
  | readLog (k : ℕ)
  /-- The next sink answers; one that refuses may have received the batch. -/
  | deliver (k : ℕ) (received accepted : Bool)
  /-- The conditional write of the cursor, which may be lost on the way. -/
  | put (k : ℕ) (arrives : Bool)
  | crash (k : ℕ)

namespace Bridges

def created (m : Manifest) : Bridges := ⟨.created m, none, 0, none, fun _ => none, [], []⟩

variable (s : Bridges)

def setCall (k : ℕ) (call : Option CatchUp) : Bridges :=
  { s with calls := Function.update s.calls k call }

/-- The cursor is read, and what was folded before it could be published is reported. -/
def locate (k : ℕ) (m : Manifest) : Bridges :=
  let readableFrom := m.minSeq - 1
  let start := (s.cursor.map Prod.fst).getD readableFrom
  if start < readableFrom then
    { s.setCall k (some (.located m.headSeq readableFrom s.cursor)) with
      gaps := (start + 1, readableFrom) :: s.gaps }
  else s.setCall k (some (.located m.headSeq start s.cursor))

variable [CharTables] (cfg : Config) (repo : String) (sinks : List ℕ)

/-- The log from a manifest read afresh; an empty batch goes to no sink. -/
def readLog (k head start : ℕ) (cursor : Option (ℕ × ℕ)) : Option Bridges :=
  if start < head then do
    let (m, _) ← s.world.current
    match s.world.readLog m start (min head m.headSeq) with
    | none => some (s.setCall k none)
    | some entries =>
      let batch := refsFromEntries repo entries
      some (s.setCall k (some
        (.delivering head start cursor batch (if batch = [] then [] else sinks))))
  else some (s.setCall k (some (.delivering head start cursor [] [])))

def put (k head start : ℕ) (cursor : Option (ℕ × ℕ)) (arrives : Bool) : Bridges :=
  if cursor.map Prod.fst = some head then s.setCall k none
  else if arrives && s.cursor.map Prod.snd = cursor.map Prod.snd then
    { s.setCall k none with
      cursor := some (head, s.nextVersion)
      nextVersion := s.nextVersion + 1
      origin := if s.cursor.isNone then some start else s.origin }
  else s.setCall k none

/-- One step of the system; `none` when it is not enabled. -/
def step (s : Bridges) : BridgeEvent → Option Bridges
  | .wal a => (Walgit.step cfg s.world a).map fun w => { s with world := w }
  | .opened k i =>
    s.world.gens[i]?.map fun g => s.setCall k (some (.opened g.manifest))
  | .locate k =>
    match s.calls k with
    | some (.opened m) => some (s.locate k m)
    | _ => none
  | .readLog k =>
    match s.calls k with
    | some (.located head start cursor) => s.readLog repo sinks k head start cursor
    | _ => none
  | .deliver k received accepted =>
    match s.calls k with
    | some (.delivering head start cursor batch (sink :: pending)) =>
      let delivered :=
        if received || accepted then batch.map (fun ev => (sink, ev)) ++ s.delivered
        else s.delivered
      some { s.setCall k (if accepted then
          some (.delivering head start cursor batch pending) else none) with
        delivered := delivered }
    | _ => none
  | .put k arrives =>
    match s.calls k with
    | some (.delivering head start cursor _ []) => some (s.put k head start cursor arrives)
    | _ => none
  | .crash k => some (s.setCall k none)

variable {cfg : Config} {repo : String} {sinks : List ℕ} {s s' : Bridges} {k : ℕ}

theorem step_locate (h : step cfg repo sinks s (.locate k) = some s') :
    ∃ m, s.calls k = some (.opened m) ∧ s' = s.locate k m := by
  simp only [step] at h
  split at h
  case h_1 m hcall => exact ⟨m, hcall, (Option.some.inj h).symm⟩
  case h_2 => cases h

theorem step_readLog (h : step cfg repo sinks s (.readLog k) = some s') :
    ∃ head start cursor, s.calls k = some (.located head start cursor) ∧
      s.readLog repo sinks k head start cursor = some s' := by
  simp only [step] at h
  split at h
  case h_1 head start cursor hcall => exact ⟨head, start, cursor, hcall, h⟩
  case h_2 => cases h

theorem step_deliver {received accepted : Bool}
    (h : step cfg repo sinks s (.deliver k received accepted) = some s') :
    ∃ head start cursor batch sink pending,
      s.calls k = some (.delivering head start cursor batch (sink :: pending)) ∧
      s' = { s.setCall k (if accepted then
          some (.delivering head start cursor batch pending) else none) with
        delivered := if received || accepted then
          batch.map (fun ev => (sink, ev)) ++ s.delivered else s.delivered } := by
  simp only [step] at h
  split at h
  case h_1 hcall => exact ⟨_, _, _, _, _, _, hcall, (Option.some.inj h).symm⟩
  case h_2 => cases h

theorem step_put {arrives : Bool} (h : step cfg repo sinks s (.put k arrives) = some s') :
    ∃ head start cursor batch, s.calls k = some (.delivering head start cursor batch []) ∧
      s' = s.put k head start cursor arrives := by
  simp only [step] at h
  split at h
  case h_1 hcall => exact ⟨_, _, _, _, hcall, (Option.some.inj h).symm⟩
  case h_2 => cases h

end Bridges

end Walgit
