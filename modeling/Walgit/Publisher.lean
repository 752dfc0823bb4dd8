import Walgit.Chain
import Walgit.ObjectStore
import Walgit.Runs

/-!
# Publishers over the object store

Any number of publishers claim log slots and swap the manifest. Every store call is
one step. A call whose reply is lost leaves its request on the wire, where it may
land at any later time or never; deletes are best effort and only ever travel that
way. `gens` and `claims` record what was committed and claimed; no publisher reads them.
-/
namespace Walgit

open ObjectStore (PutMode)

/-- What the store holds under a key. -/
inductive Body where
  | manifest (m : Manifest)
  | segment (entries : List LogEntry)
  deriving DecidableEq

inductive WalError where
  | corrupt (message : String)
  | store (message : String)
  | invalid (message : String)
  | retry (attempts : ℕ)
  | commitUnknown (message : String)
  deriving DecidableEq, Repr

def WalError.text : WalError → String
  | corrupt m => "corrupt: " ++ m
  | store m => m
  | invalid m => "rejected: " ++ m
  | retry n => "retry exhausted after " ++ toString n ++ " attempts"
  | commitUnknown m => "commit outcome unknown: " ++ m

inductive Answer where
  | ok (r : PublishResult)
  | error (e : WalError)
  deriving DecidableEq, Repr

inductive Phase where
  /-- About to sync and capture a basis. -/
  | ready
  /-- About to create the segment at `seq`. -/
  | claiming (a : Attempt) (seq : ℕ) (burned : List (ℕ × ℕ))
  /-- The segment exists: about to read the manifest. -/
  | probing (a : Attempt) (seq : ℕ) (burned : List (ℕ × ℕ)) (probes : ℕ)
  /-- Not committed there: about to look at the segment again. -/
  | heading (a : Attempt) (seq : ℕ) (burned : List (ℕ × ℕ)) (probes : ℕ)
  /-- Segment claimed: about to swap the manifest. -/
  | swapping (a : Attempt) (σ : Slot)
  /-- The swap's reply was lost: about to read the manifest. -/
  | rereading (a : Attempt) (σ : Slot) (message : String)
  /-- The manifest read names the slot: about to compare the bytes. -/
  | confirming (a : Attempt) (σ : Slot) (m : Manifest) (version : ℕ) (message : String)
  | committed (a : Attempt) (σ : Slot) (m : Manifest) (version : ℕ)
  | done (answers : List Answer)
  | crashed
  deriving DecidableEq

/-- The phases between capturing a basis and swapping the manifest. -/
def Phase.unsent : Phase → Bool
  | .claiming .. | .probing .. | .heading .. | .swapping .. => true
  | _ => false

structure Task where
  job : Job
  attempts : ℕ
  phase : Phase
  deriving DecidableEq

/-- A request whose reply nobody waits for any more. -/
inductive Request where
  | create (seq : ℕ) (bytes : List LogEntry)
  | delete (seq version : ℕ)
  | swap (mode : PutMode) (m : Manifest) (origin : Option Origin)
  deriving DecidableEq

structure World where
  store : ObjectStore Key Body
  tasks : ℕ → Option Task
  wire : List Request
  nonces : List String
  claims : List Origin
  /-- Successful manifest writes, newest first. -/
  gens : List Generation

inductive Reply where
  | delivered
  | lost (message : String)
  deriving DecidableEq, Repr

inductive Action where
  | start (t : ℕ) (job : Job)
  | capture (t : ℕ) (a : Attempt)
  | abort (t : ℕ) (message : String)
  | claim (t : ℕ) (uuid : String) (clock : ℕ → Timestamp) (reply : Reply)
  | probe (t : ℕ) (failure : Option String)
  | head (t : ℕ) (failure : Option String)
  | refuse (t : ℕ) (message : String) (dropSlot : Bool)
  | swap (t : ℕ) (now : Timestamp) (reply : Reply)
  | reread (t : ℕ) (failure : Option String)
  | confirm (t : ℕ) (failure : Option String)
  | finish (t : ℕ)
  | crash (t : ℕ)
  | rewrite (job : MetaJob) (basis : Manifest) (version : ℕ) (policy : PackPolicy)
      (writer : String) (now : Timestamp) (reply : Reply)
  | land (k : ℕ)
  | lose (k : ℕ)

def maxBurn : ℕ := 8

def orphanGraceProbes : ℕ := 3

/-- The same error for every request of a batch, or for the one call. -/
def failAll (job : Job) (e : WalError) : List Answer :=
  match job with
  | .batch reqs => reqs.map fun _ => .error e
  | _ => [.error e]

/-- Definite failures reach a batch as `Corrupt`, other callers as they are. -/
def definiteError (job : Job) (e : WalError) : List Answer :=
  match job with
  | .batch _ => failAll job (.corrupt e.text)
  | _ => failAll job e

/-- Failures after a store write reach a batch as `CommitUnknown`. -/
def unknownError (job : Job) (e : WalError) : List Answer :=
  match job with
  | .batch _ => failAll job (.commitUnknown e.text)
  | _ => failAll job e

/-- The swap failed and so did the look whether it landed. -/
def rereadError (job : Job) (message e : String) : List Answer :=
  match job with
  | .batch _ => failAll job (.commitUnknown
      (message ++ " (and re-reading the manifest failed: " ++ e ++ ")"))
  | .sealPacks .. => failAll job (.store e)
  | _ => failAll job (.store message)

/-- Only a compaction takes its slot back when validation refuses it. -/
def Job.isCompact : Job → Bool
  | .compact .. => true
  | _ => false

def Job.isControl : Job → Bool
  | .control _ => true
  | _ => false

namespace World

def setTask (w : World) (t : ℕ) (task : Task) : World :=
  { w with tasks := Function.update w.tasks t (some task) }

def send (w : World) (rs : List Request) : World := { w with wire := w.wire ++ rs }

/-- The manifest the store serves, with its version. -/
def current (w : World) : Option (Manifest × ℕ) :=
  match w.store.objects .manifest with
  | some (v, .manifest m) => some (m, v)
  | _ => none

def held (w : World) (m : Manifest) (v : ℕ) : Bool :=
  w.gens.any fun g => g.manifest = m && g.version = v

/-- A basis the handle can hold: a committed manifest, under its version if it is known. -/
def canHold (w : World) (b : Basis) : Bool :=
  match b.version with
  | some v => w.held b.manifest v
  | none => w.gens.any fun g => g.manifest = b.manifest

/-- The store applies a manifest write. -/
def commit (w : World) (m : Manifest) (origin : Option Origin) : World :=
  { w with
    store := w.store.write .manifest (.manifest m)
    gens := ⟨m, w.store.next, origin⟩ :: w.gens }

end World

def Basis.putMode (b : Basis) : PutMode :=
  match b.version with
  | some v => .update v
  | none => .create

namespace Task

/-- A lost race: another attempt, or the retries are used up. -/
def retry (cfg : Config) (task : Task) : Task :=
  let attempts := task.attempts + 1
  if cfg.casMaxRetries ≤ attempts then
    { task with attempts := attempts, phase := .done (definiteError task.job (.retry attempts)) }
  else { task with attempts := attempts, phase := .ready }

def finishWith (task : Task) (answers : List Answer) : Task := { task with phase := .done answers }

def goto (task : Task) (phase : Phase) : Task := { task with phase := phase }

@[simp] theorem finishWith_job (task : Task) (answers : List Answer) :
    (task.finishWith answers).job = task.job := rfl

@[simp] theorem goto_job (task : Task) (phase : Phase) : (task.goto phase).job = task.job := rfl

@[simp] theorem retry_job (cfg : Config) (task : Task) : (task.retry cfg).job = task.job := by
  simp only [retry]
  split_ifs <;> rfl

end Task

section Step

variable [Text.CharTables] (cfg : Config)

/-- After a basis is captured: refuse, settle without a write, or start claiming. -/
def captured (task : Task) (a : Attempt) : Task :=
  match task.job.entries a (fun _ => a.startedAt) (a.basis.manifest.headSeq + 1) with
  | .error e => task.finishWith (failAll task.job (.invalid e))
  | .ok [] =>
    match task.job with
    | .batch reqs => task.finishWith ((responses 0 (verifyBatch a.basis reqs).1).map .ok)
    | _ => task.finishWith (failAll task.job (.corrupt "incomplete candidate log"))
  | .ok (_ :: _) => task.goto (.claiming a (a.basis.manifest.headSeq + 1) [])

@[simp] theorem captured_job (task : Task) (a : Attempt) : (captured task a).job = task.job := by
  unfold captured
  split
  · rfl
  · split <;> rfl
  · rfl

/-- The answers of a committed job. -/
def committedAnswers (job : Job) (a : Attempt) (σ : Slot) : List Answer :=
  match job with
  | .batch reqs => (responses σ.firstSeq (verifyBatch a.basis reqs).1).map .ok
  | _ => [.ok ⟨σ.firstSeq, [], none⟩]

/-- `cas_landed` finds the slot in a manifest's segment list. -/
def Slot.listedIn (σ : Slot) (m : Manifest) : Bool :=
  m.logSegments.any fun s =>
    s.key = .log σ.firstSeq && s.firstSeq = σ.firstSeq && s.size = cfg.encodedLen σ.bytes

namespace World

/-- One `PUT` of a claim loop. -/
def claim (w : World) (t : ℕ) (task : Task) (a : Attempt) (seq : ℕ) (burned : List (ℕ × ℕ))
    (uuid : String) (clock : ℕ → Timestamp) : Reply → Option World
  | .delivered =>
    if uuid ∈ w.nonces then none
    else match task.job.entries a clock seq with
      | .error _ => none
      | .ok entries =>
        let bytes := withNonce uuid entries
        let σ : Slot := ⟨t, w.store.next, seq, bytes, uuid, burned⟩
        match w.store.put (.log seq) (.segment bytes) .create with
        | some store =>
          some ({ w with
            store := store
            nonces := uuid :: w.nonces
            claims := ⟨task.job, a, σ⟩ :: w.claims }.setTask t (task.goto (.swapping a σ)))
        | none =>
          some ({ w with nonces := uuid :: w.nonces }.setTask t
            (task.goto (.probing a seq burned 0)))
  | .lost message =>
    if uuid ∈ w.nonces then none
    else match task.job.entries a clock seq with
      | .error _ => none
      | .ok entries =>
        some ({ w with nonces := uuid :: w.nonces }.send [.create seq (withNonce uuid entries)]
          |>.setTask t (task.finishWith (unknownError task.job (.store message))))

/-- Somebody wrote the segment: committed when the head has reached it. -/
def probe (w : World) (t : ℕ) (task : Task) (a : Attempt) (seq : ℕ) (burned : List (ℕ × ℕ))
    (probes : ℕ) : Option World := do
  let (m, _) ← w.current
  if seq ≤ m.headSeq then some (w.setTask t (task.retry cfg))
  else some (w.setTask t (task.goto (.heading a seq burned probes)))

/-- The slot is free again, still there, or an orphan whose sequence is burned. -/
def head (w : World) (t : ℕ) (task : Task) (a : Attempt) (seq : ℕ) (burned : List (ℕ × ℕ))
    (probes : ℕ) : World :=
  match w.store.version (.log seq) with
  | none => w.setTask t (task.goto (.claiming a seq burned))
  | some v =>
    if probes + 1 < orphanGraceProbes then
      w.setTask t (task.goto (.probing a seq burned (probes + 1)))
    else
      let burned := burned ++ [(seq, v)]
      if maxBurn ≤ burned.length then
        w.setTask t (task.finishWith (unknownError task.job (.corrupt (toString maxBurn ++
          " consecutive orphaned log segments from seq " ++
          toString (a.basis.manifest.headSeq + 1)))))
      else w.setTask t (task.goto (.claiming a (seq + 1) burned))

/-- The manifest compare-and-swap. -/
def swap (w : World) (t : ℕ) (task : Task) (a : Attempt) (σ : Slot) (now : Timestamp)
    (reply : Reply) : Option World := do
  let m ← (task.job.manifest a now (σ.ref cfg)).toOption
  let origin : Origin := ⟨task.job, a, σ⟩
  match reply with
  | .delivered =>
    if w.store.accepts .manifest a.basis.putMode then
      some ((w.commit m (some origin)).setTask t (task.goto (.committed a σ m w.store.next)))
    else
      some (w.send [.delete σ.firstSeq σ.version] |>.setTask t (task.retry cfg))
  | .lost message =>
    let w := w.send [.swap a.basis.putMode m (some origin)]
    match task.job with
    -- `publish_one` does not look whether its swap landed.
    | .control _ => some (w.setTask t (task.finishWith (failAll task.job (.store message))))
    | _ => some (w.setTask t (task.goto (.rereading a σ message)))

def reread (w : World) (t : ℕ) (task : Task) (a : Attempt) (σ : Slot) (message : String) :
    Option World := do
  let (m, v) ← w.current
  if σ.listedIn cfg m then some (w.setTask t (task.goto (.confirming a σ m v message)))
  else some (w.setTask t (task.finishWith (unknownError task.job (.store message))))

def confirm (w : World) (t : ℕ) (task : Task) (a : Attempt) (σ : Slot) (m : Manifest) (v : ℕ)
    (message : String) : World :=
  if (w.store.objects (.log σ.firstSeq)).map Prod.snd = some (.segment σ.bytes) then
    w.setTask t (task.goto (.committed a σ m v))
  else w.setTask t (task.finishWith (unknownError task.job (.store message)))

/-- A metadata write is made from a committed basis; the view a checkpoint folded is
committed too and not checkpointed yet. -/
def mayRewrite (w : World) (job : MetaJob) (basis : Manifest) (version : ℕ) : Bool :=
  w.held basis version &&
    match job with
    | .checkpoint view cp =>
      w.gens.any (fun g => g.manifest = view) && cp.seq = view.headSeq && view.headSeq ≠ 0 &&
        !(view.checkpoint.isSome && view.checkpointSeq = view.headSeq)
    | _ => true

/-- A request on the wire reaches the store. -/
def land (w : World) : Request → World
  | .create seq bytes =>
    match w.store.put (.log seq) (.segment bytes) .create with
    | some store => { w with store := store }
    | none => w
  | .delete seq version => { w with store := w.store.delete (.log seq) version }
  | .swap mode m origin => if w.store.accepts .manifest mode then w.commit m origin else w

end World

/-- One step of the system; `none` when the action is not enabled. -/
def step (w : World) : Action → Option World
  | .start t job =>
    if (w.tasks t).isSome then none else some (w.setTask t ⟨job, 0, .ready⟩)
  | .capture t a => do
    let task ← w.tasks t
    match task.phase with
    | .ready => if w.canHold a.basis then some (w.setTask t (captured task a)) else none
    | _ => none
  | .abort t message => do
    let task ← w.tasks t
    match task.phase with
    | .ready => some (w.setTask t (task.finishWith (definiteError task.job (.store message))))
    | _ => none
  | .claim t uuid clock reply => do
    let task ← w.tasks t
    match task.phase with
    | .claiming a seq burned => w.claim t task a seq burned uuid clock reply
    | _ => none
  | .probe t failure => do
    let task ← w.tasks t
    match task.phase, failure with
    | .probing a seq burned probes, none => w.probe cfg t task a seq burned probes
    | .probing .., some e =>
      some (w.setTask t (task.finishWith (unknownError task.job (.store e))))
    | _, _ => none
  | .head t failure => do
    let task ← w.tasks t
    match task.phase, failure with
    | .heading a seq burned probes, none => some (w.head t task a seq burned probes)
    | .heading .., some e =>
      some (w.setTask t (task.finishWith (unknownError task.job (.store e))))
    | _, _ => none
  | .refuse t message dropSlot => do
    let task ← w.tasks t
    match task.phase with
    | .swapping _ σ =>
      let w := if dropSlot && task.job.isCompact then w.send [.delete σ.firstSeq σ.version] else w
      some (w.setTask t (task.finishWith (definiteError task.job (.invalid message))))
    -- A pack upload failed while the claim was under way.
    | .claiming .. | .probing .. | .heading .. =>
      some (w.setTask t (task.finishWith (definiteError task.job (.invalid message))))
    | _ => none
  | .swap t now reply => do
    let task ← w.tasks t
    match task.phase with
    | .swapping a σ => w.swap cfg t task a σ now reply
    | _ => none
  | .reread t failure => do
    let task ← w.tasks t
    match task.phase, failure with
    | .rereading a σ message, none => w.reread cfg t task a σ message
    | .rereading _ _ message, some e =>
      some (w.setTask t (task.finishWith (rereadError task.job message e)))
    | _, _ => none
  | .confirm t failure => do
    let task ← w.tasks t
    match task.phase, failure with
    | .confirming a σ m v message, none => some (w.confirm t task a σ m v message)
    | .confirming _ _ _ _ message, some e =>
      some (w.setTask t (task.finishWith (rereadError task.job message e)))
    | _, _ => none
  | .finish t => do
    let task ← w.tasks t
    match task.phase with
    | .committed a σ _ _ =>
      some (w.send (σ.burned.map fun b => .delete b.1 b.2) |>.setTask t
        (task.finishWith (committedAnswers task.job a σ)))
    | _ => none
  | .crash t => do
    let task ← w.tasks t
    match task.phase with
    | .done _ => none
    | _ => some (w.setTask t (task.goto .crashed))
  | .rewrite job basis version policy writer now reply =>
    if !w.mayRewrite job basis version then none
    else do
      let m ← job.manifest basis policy writer now
      match reply with
      | .delivered => some (w.land (.swap (.update version) m none))
      | .lost _ => some (w.send [.swap (.update version) m none])
  | .land k => do
    let r ← w.wire[k]?
    some ({ w with wire := w.wire.eraseIdx k }.land r)
  | .lose k => if k < w.wire.length then some { w with wire := w.wire.eraseIdx k } else none

end Step

/-- A repository just created: its manifest and nothing else. -/
def World.created (m : Manifest) : World where
  store := ⟨Function.update (fun _ => none) .manifest (some (0, .manifest m)), 1⟩
  tasks := fun _ => none
  wire := []
  nonces := []
  claims := []
  gens := [⟨m, 0, none⟩]

end Walgit
