import Walgit.ObjectStore
import Walgit.StaticObjects

/-!
# Large files

The Git LFS endpoints: the batch call, upload, download and verify, and the read-through of objects
that only the upstream has. Every call to the store is a step, so anything may happen between the
looks of one request; a write whose reply is lost may land later.
-/
namespace Walgit.Lfs

open Text
open StaticObject (Headers Look Method Object Response ServeOptions)

/-- Git LFS oid: 64 hex characters. -/
def lfsOidOk (oid : String) : Bool := oid.utf8ByteSize = 64 && oid.toList.all isAsciiHexDigit

structure Oid where
  text : String
  ok : lfsOidOk text = true
  deriving DecidableEq

def lfsKey (o : Oid) : String :=
  "lfs/objects/" ++ String.ofList (o.text.toList.take 2) ++ "/" ++
    String.ofList ((o.text.toList.drop 2).take 2) ++ "/" ++ o.text

/-- What a client sends or a key holds; its length is counted in 64 bits. -/
structure Blob where
  bytes : List UInt8
  small : bytes.length < 2 ^ 64

inductive LfsServe where
  | proxy
  | signedUrl
  deriving DecidableEq, Repr

structure LfsConfig where
  enabled : Bool
  serveVia : LfsServe
  maxObjectBytes : ℕ
  deriving DecidableEq, Repr

/-- What a request's checks say on this host. -/
structure Caller where
  id : RepoId
  authenticate : Except ApiError Unit
  serves : Bool
  repo : Role → Except ApiError Unit

def notServedHere (c : Caller) : Except ApiError Unit :=
  if c.serves then .ok ()
  else .error (.serviceUnavailable (c.id.text ++ " is not served by this host; retry shortly"))

def requireEnabled (cfg : LfsConfig) : Except ApiError Unit :=
  if cfg.enabled then .ok () else .error (.notFound "lfs disabled")

def requireLfsOid (oid : String) : Except ApiError Oid :=
  if h : lfsOidOk oid = true then .ok ⟨oid, h⟩ else .error (.badRequest "invalid lfs oid")

section Batch

structure BatchRequest where
  operation : String
  objects : List (String × ℕ)
  deriving DecidableEq, Repr

def BatchRequest.isUpload (r : BatchRequest) : Bool := r.operation = "upload"

structure Actions where
  download : Option String
  upload : Option String
  verify : Option String
  deriving DecidableEq, Repr

structure LfsError where
  code : ℕ
  message : String
  deriving DecidableEq, Repr

structure BatchRespObject where
  oid : String
  size : ℕ
  authenticated : Option Bool
  actions : Option Actions
  error : Option LfsError
  deriving DecidableEq, Repr

/-- One object of the upstream's answer. -/
structure UpstreamRow where
  oid : String
  size : ℕ
  download : Option String
  deriving DecidableEq, Repr

structure UpstreamObject where
  size : ℕ
  href : String
  deriving DecidableEq, Repr

/-- What the upstream can serve of what it was asked for; no answer is none of it. -/
def batchInner (asked : List (String × ℕ)) (rows : Option (List UpstreamRow)) :
    SortedMap String UpstreamObject :=
  let sizes : SortedMap String ℕ := .ofList asked
  .ofList ((rows.getD []).filterMap fun o => do
    let href ← o.download
    let size ← sizes.find? o.oid
    pure (o.oid, ⟨if 0 < o.size then o.size else size, href⟩))

/-- The checks of a batch call, in their order. -/
def batchGate (cfg : LfsConfig) (c : Caller) (r : BatchRequest) :
    Except ApiError (List (Oid × ℕ)) := do
  requireEnabled cfg
  c.authenticate
  notServedHere c
  c.repo (if r.isUpload then .write else .read)
  r.objects.mapM fun o => (requireLfsOid o.1).map fun oid => (oid, o.2)

def objectHref (base : String) (o : Oid) : String := base ++ "/info/lfs/objects/" ++ o.text

/-- An object that the server or the upstream has is not uploaded. -/
def respond (serveVia : LfsServe) (base : String) (isUpload : Bool) (o : Oid) (size : ℕ)
    (held atUpstream : Bool) (signed : Option String) : BatchRespObject :=
  if isUpload && (held || atUpstream) then ⟨o.text, size, some true, none, none⟩
  else if isUpload then
    ⟨o.text, size, none, some ⟨none, some (objectHref base o), some (base ++ "/info/lfs/verify")⟩, none⟩
  else if atUpstream then
    ⟨o.text, size, none, some ⟨some (objectHref base o ++ "?size=" ++ toString size), none, none⟩, none⟩
  else if held then
    let href := match serveVia with
      | .signedUrl => signed.getD (objectHref base o)
      | .proxy => objectHref base o
    ⟨o.text, size, none, some ⟨some href, none, none⟩, none⟩
  else ⟨o.text, size, none, none, some ⟨404, "object not found"⟩⟩

end Batch

section Upload

inductive PutRefusal where
  | api (e : ApiError)
  | payloadTooLarge
  deriving DecidableEq, Repr

/-- The body as it comes in, up to the limit. -/
def readBody (max : ℕ) : ℕ → List (Except String (List UInt8)) → Except PutRefusal (List UInt8)
  | _, [] => .ok []
  | _, .error e :: _ => .error (.api (.internal e))
  | n, .ok b :: chunks =>
    if max < n + b.length then .error .payloadTooLarge
    else (readBody max (n + b.length) chunks).map (b ++ ·)

variable (sha256 : List UInt8 → String)

/-- `put_object` up to its write: the object and what is written. -/
def putObject (cfg : LfsConfig) (c : Caller) (oid : String)
    (chunks : List (Except String (List UInt8))) : Except PutRefusal (Oid × List UInt8) := do
  (requireEnabled cfg).mapError .api
  c.authenticate.mapError .api
  (notServedHere c).mapError .api
  let o ← (requireLfsOid oid).mapError .api
  (c.repo .write).mapError .api
  let body ← readBody cfg.maxObjectBytes 0 chunks
  if sha256 body ≠ oid then .error (.api (.badRequest "lfs object sha256 mismatch"))
  else .ok (o, body)

end Upload

section Download

/-- `get_object` up to its first call to the store. -/
def getGate (cfg : LfsConfig) (c : Caller) (oid : String) : Except ApiError Oid := do
  requireEnabled cfg
  c.authenticate
  notServedHere c
  let o ← requireLfsOid oid
  c.repo .read
  pure o

/-- Bytes from the upstream, and whether they were written to the spool. -/
abbrev Chunk := Except String (List UInt8) × Bool

/-- What was streamed to the client, and whether the spool has all of it. -/
def tee : List Chunk → List UInt8 × Bool
  | [] => ([], true)
  | (.error _, _) :: _ => ([], false)
  | (.ok b, spooled) :: chunks => (b ++ (tee chunks).1, spooled && (tee chunks).2)

/-- How the upstream's object is opened and read. -/
structure Transfer where
  opened : Except String ℕ
  spool : Except String Unit
  chunks : List Chunk
  flushed : Bool

variable (sha256 : List UInt8 → String)

/-- Only a whole and matching read is kept. -/
def Transfer.persists (t : Transfer) (len : ℕ) (o : Oid) : Bool :=
  (tee t.chunks).2 && (tee t.chunks).1.length = len && sha256 (tee t.chunks).1 = o.text && t.flushed

/-- An object that the store lacks: streamed to the client, and what of it is to be kept. -/
def readThrough (o : Oid) (size : ℕ) (method : Method) (rows : Option (List UpstreamRow))
    (t : Transfer) : Except ApiError Response × Option (List UInt8) :=
  match (batchInner [(o.text, size)] rows).find? o.text with
  | none => (.error (.notFound "object not found"), none)
  | some obj =>
    match method, t.opened, t.spool with
    | .head, _, _ => (.ok ⟨200, [("content-length", toString obj.size),
        ("content-type", "application/octet-stream")], []⟩, none)
    | .get, .error e, _ => (.error (.serviceUnavailable ("lfs upstream: " ++ e)), none)
    | .get, .ok _, .error e => (.error (.internal e), none)
    | .get, .ok len, .ok () =>
      (.ok ⟨200, [("content-length", toString len), ("content-type", "application/octet-stream"),
        ("cache-control", "no-store")], (tee t.chunks).1⟩,
        if t.persists sha256 len o then some (tee t.chunks).1 else none)

/-- The store's key is not the client's name for the object. -/
def servedError (id : RepoId) (o : Oid) : StaticObject.ApiError → ApiError
  | .notFound _ => .notFound ("LFS object " ++ o.text ++ " is not in " ++ id.text)
  | .conflict m => .conflict m
  | .internal => .internal ""

end Download

section Verify

/-- `verify` up to its call to the store. -/
def verifyGate (cfg : LfsConfig) (c : Caller) (oid : String) : Except ApiError Oid := do
  requireEnabled cfg
  let o ← requireLfsOid oid
  c.authenticate
  c.repo .write
  pure o

def verified (o : Oid) (size : ℕ) : Option ℕ → Except ApiError Unit
  | some found =>
    if found = size then .ok () else .error (.badRequest "lfs size mismatch")
  | none => .error (.notFound o.text)

end Verify

end Walgit.Lfs
