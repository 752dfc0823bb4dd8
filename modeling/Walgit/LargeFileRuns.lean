import Walgit.LargeFiles

/-!
# Large files over whole runs

The requests of any number of clients, at any number of hosts, over one repository's store. What is
stored under an id hashes to it; what a client was told the server has stays there; and what the
store serves is what was asked for.
-/
namespace Walgit.Lfs

open StaticObject (Headers Look Method Object Response ServeOptions serve storeOf Describes)

/-- A batch call that asks the store about one object after the other. -/
structure BatchRun where
  serveVia : LfsServe
  base : String
  isUpload : Bool
  objects : List (Oid × ℕ)
  present : List Bool

/-- The objects that the upstream is asked for. -/
def BatchRun.missing (r : BatchRun) : List (String × ℕ) :=
  (r.objects.zip r.present).filterMap fun p => if p.2 then none else some (p.1.1.text, p.1.2)

def BatchRun.held (r : BatchRun) : List Oid :=
  (r.objects.zip r.present).filterMap fun p => if p.2 then some p.1.1 else none

def BatchRun.answer (r : BatchRun) (found : SortedMap String UpstreamObject)
    (signed : Oid → Option String) : List BatchRespObject :=
  (r.objects.zip r.present).map fun p =>
    respond r.serveVia r.base r.isUpload p.1.1 p.1.2 p.2
      (!p.2 && (found.find? p.1.1.text).isSome) (signed p.1.1)

structure BatchAnswer where
  run : BatchRun
  found : SortedMap String UpstreamObject
  objects : List BatchRespObject

inductive GetPhase where
  /-- There is an upstream: about to ask whether the store has the object. -/
  | asking (size : ℕ)
  | looking
  | looked (first : Look)
  | through (size : ℕ)
  | served (answer : Except ApiError Response)
  | streamed (answer : Except ApiError Response)

structure GetRun where
  id : RepoId
  oid : Oid
  method : Method
  headers : Headers
  opts : ServeOptions
  phase : GetPhase
  /-- The store did not say whether it has the object. -/
  blind : Bool
  /-- A client had been told that the server has the object. -/
  promised : Bool

/-- A verified body on its way to the store. -/
structure PutRun where
  oid : Oid
  blob : Blob
  landed : Bool
  answer : Option Bool

structure Site where
  bucket : ObjectStore String Blob
  batches : ℕ → Option BatchRun
  gets : ℕ → Option GetRun
  puts : ℕ → Option PutRun
  answered : List BatchAnswer
  /-- What clients were told that the server has. -/
  promised : List Oid

inductive Event where
  | batch (b : ℕ) (cfg : LfsConfig) (c : Caller) (base : String) (r : BatchRequest)
  | look (b : ℕ) (failed : Bool)
  | respond (b : ℕ) (upstream : Bool) (rows : Option (List UpstreamRow))
      (signed : Oid → Option String)
  | get (g : ℕ) (cfg : LfsConfig) (c : Caller) (upstream : Bool) (oid : String) (size : ℕ)
      (method : Method) (h : Headers) (opts : ServeOptions)
  | ask (g : ℕ) (failed : Bool)
  | first (g : ℕ) (failed : Bool)
  | second (g : ℕ) (failed : Bool)
  | through (g p : ℕ) (rows : Option (List UpstreamRow)) (t : Transfer)
  | put (p : ℕ) (cfg : LfsConfig) (c : Caller) (oid : String)
      (chunks : List (Except String (List UInt8)))
  | land (p : ℕ)
  | reply (p : ℕ) (ok : Bool)
  | verify (cfg : LfsConfig) (c : Caller) (oid : String) (size : ℕ)

/-- The hash of an object, the text of a version in the store, and what may be a header's value. -/
structure Tools where
  sha256 : List UInt8 → String
  versionText : ℕ → String
  isHeaderValue : String → Bool

namespace Site

def start (b : ObjectStore String Blob) : Site :=
  ⟨b, fun _ => none, fun _ => none, fun _ => none, [], []⟩

variable (s : Site)

def present (o : Oid) : Bool := (s.bucket.objects (lfsKey o)).isSome

variable (t : Tools)

/-- What a call to the store comes upon. -/
def look (o : Oid) (failed : Bool) : Look :=
  if failed then .error .other
  else .ok ((s.bucket.objects (lfsKey o)).map fun p => ⟨t.versionText p.1, p.2.bytes, p.2.small⟩)

def setGet (g : ℕ) (run : GetRun) : Site :=
  { s with gets := Function.update s.gets g (some run) }

/-- The write of a body that was verified. -/
def startPut (p : ℕ) (o : Oid) (bytes : List UInt8) : Site :=
  if h : bytes.length < 2 ^ 64 then
    { s with puts := Function.update s.puts p (some ⟨o, ⟨bytes, h⟩, false, none⟩) }
  else s

/-- One step; `none` when it is not enabled. -/
def step (s : Site) : Event → Option Site
  | .batch b cfg c base r =>
    match s.batches b, batchGate cfg c r with
    | none, .ok objects =>
      let run : BatchRun := ⟨cfg.serveVia, base, r.isUpload, objects, []⟩
      some { s with batches := Function.update s.batches b (some run) }
    | _, _ => none
  | .look b failed => do
    let r ← s.batches b
    let o ← r.objects[r.present.length]?
    let r := { r with present := r.present ++ [!failed && s.present o.1] }
    some { s with batches := Function.update s.batches b (some r) }
  | .respond b upstream rows signed => do
    let r ← s.batches b
    if r.present.length < r.objects.length then none
    else
      let found := if upstream && !r.missing.isEmpty then batchInner r.missing rows else .empty
      some { s with
        batches := Function.update s.batches b none
        answered := ⟨r, found, r.answer found signed⟩ :: s.answered
        promised := r.held ++ s.promised }
  | .get g cfg c upstream oid size method h opts =>
    match s.gets g, getGate cfg c oid with
    | none, .ok o =>
      let phase := if upstream then GetPhase.asking size else .looking
      some (s.setGet g ⟨c.id, o, method, h, opts, phase, false, s.promised.contains o⟩)
    | _, _ => none
  | .ask g failed => do
    let run ← s.gets g
    match run.phase with
    | .asking size =>
      if !failed && s.present run.oid then some (s.setGet g { run with phase := .looking })
      else some (s.setGet g { run with phase := .through size, blind := failed })
    | _ => none
  | .first g failed => do
    let run ← s.gets g
    match run.phase with
    | .looking => some (s.setGet g { run with phase := .looked (s.look t run.oid failed) })
    | _ => none
  | .second g failed => do
    let run ← s.gets g
    match run.phase with
    | .looked first =>
      let key := lfsKey run.oid
      let store := storeOf key first (s.look t run.oid failed)
      let answer := (serve t.isHeaderValue store key run.method run.headers run.opts).mapError
        (servedError run.id run.oid)
      some (s.setGet g { run with phase := .served answer })
    | _ => none
  | .through g p rows transfer => do
    let run ← s.gets g
    match run.phase, s.puts p with
    | .through size, none =>
      let r := readThrough t.sha256 run.oid size run.method rows transfer
      let s := s.setGet g { run with phase := .streamed r.1 }
      some (r.2.elim s (s.startPut p run.oid))
    | _, _ => none
  | .put p cfg c oid chunks =>
    match s.puts p, putObject t.sha256 cfg c oid chunks with
    | none, .ok (o, body) => some (s.startPut p o body)
    | _, _ => none
  | .land p => do
    let put ← s.puts p
    some { s with
      bucket := s.bucket.write (lfsKey put.oid) put.blob
      puts := Function.update s.puts p (some { put with landed := true }) }
  | .reply p ok => do
    let put ← s.puts p
    if put.answer.isSome || (ok && !put.landed) then none
    else
      some { s with
        puts := Function.update s.puts p (some { put with answer := some ok })
        promised := if ok then put.oid :: s.promised else s.promised }
  | .verify cfg c oid size =>
    match verifyGate cfg c oid with
    | .ok o =>
      match verified o size ((s.bucket.objects (lfsKey o)).map fun p => p.2.bytes.length) with
      | .ok () => some { s with promised := o :: s.promised }
      | .error _ => none
    | .error _ => none

end Site

end Walgit.Lfs
