import Walgit.Inventory

/-!
# Direct imports that are interrupted

An import uploads packs, prepares a checkpoint and swaps the manifest; a marker on disk names what
is done. It may stop anywhere and be started again, while others write into the bucket.
-/
namespace Walgit.Importing

/-- Phases of an import, in order; the marker names the last one completed. -/
inductive ImportPhase where
  | started
  | verified
  | sideFiles
  | historyPack
  | uploaded
  | checkpointPrepared
  deriving DecidableEq, Repr

def ImportPhase.rank : ImportPhase → ℕ
  | .started => 0
  | .verified => 1
  | .sideFiles => 2
  | .historyPack => 3
  | .uploaded => 4
  | .checkpointPrepared => 5

/-- A pack with its index, and the sizes of the side-files next to it. -/
structure LocalPack where
  checksum : String
  packSize : ℕ
  idxSize : ℕ
  rev : Option ℕ
  bitmap : Option ℕ
  commitGraph : Option ℕ
  objectCount : ℕ
  historyOf : Option String
  deriving DecidableEq, Repr

/-- What is to be imported: the refs that are published and the packs that were scanned. -/
structure Request where
  repo : String
  refs : RefState
  packs : List LocalPack
  replace : Bool
  force : Bool
  commitGraph : Bool
  historyPack : Bool
  verifyClosure : Bool
  deriving DecidableEq

structure ImportMarker where
  repo : String
  tipsHash : String
  baseManifestVersion : Option ℕ
  baseHeadSeq : ℕ
  seq : ℕ
  phase : ImportPhase
  uploaded : List String
  historyPack : Option String
  deriving DecidableEq, Repr

inductive ResumeDecision where
  | fresh
  | resume (m : ImportMarker)
  | refuse (startedAt now : Option ℕ)
  deriving DecidableEq, Repr

/-- A marker is continued by the same intent on the same base; on another base only from anew, and
only when forced. -/
def decideResume (marker : Option ImportMarker) (repo tips : String) (current : Option ℕ)
    (force : Bool) : ResumeDecision :=
  match marker with
  | none => .fresh
  | some m =>
    if m.repo ≠ repo ∨ m.tipsHash ≠ tips then .fresh
    else if m.baseManifestVersion ≠ current then
      if force then .fresh else .refuse m.baseManifestVersion current
    else .resume m

/-- What the bucket holds, as far as an import reads it. -/
inductive Item where
  | manifest (m : Manifest)
  | file (size : ℕ)
  | refs (refs : RefState)
  | checkpoint (seq : ℕ) (packs : List PackRef) (refsKey : String)
  deriving DecidableEq

abbrev Bucket := ObjectStore String Item

def manifestKey : String := "manifest.pb"

def walKey (checksum ext : String) : String := "wal/" ++ checksum ++ "." ++ ext

namespace LocalPack

/-- The objects of a pack: keys and sizes. -/
def objects (p : LocalPack) : List (String × ℕ) :=
  [(walKey p.checksum "pack", p.packSize), (walKey p.checksum "idx", p.idxSize)] ++
    (p.rev.map fun n => (walKey p.checksum "rev", n)).toList ++
    (p.bitmap.map fun n => (walKey p.checksum "bitmap", n)).toList ++
    (p.commitGraph.map fun n => (walKey p.checksum "commit-graph", n)).toList

def packRef (p : LocalPack) (seq : ℕ) (now : Timestamp) : PackRef where
  checksum := p.checksum
  packSize := p.packSize
  idxSize := p.idxSize
  hasRev := p.rev.isSome
  hasBitmap := p.bitmap.isSome
  hasCommitGraph := p.commitGraph.isSome
  objectCount := p.objectCount
  seq := seq
  tier := 2
  kind := if p.historyOf.isSome then .history else .objects
  derivedFrom := p.historyOf.getD ""
  publishedAt := some now

end LocalPack

/-- Where a run is. -/
inductive Stage where
  | verify
  | sideFiles
  | history
  | packs (left : List LocalPack)
  | objects (present : List String) (left : List (String × ℕ)) (packs : List LocalPack)
  /-- An object is in the bucket that the marker does not name yet. -/
  | landed (key : String) (present : List String) (left : List (String × ℕ))
      (packs : List LocalPack)
  | candidates
  | checkpoint (packs : List PackRef) (createdAt : Timestamp)
  | publish (createdAt : Timestamp)
  deriving DecidableEq

/-- A run of the importer, with the manifest it read and its marker in memory. -/
structure Run where
  request : Request
  base : Option (ℕ × Manifest)
  marker : ImportMarker
  packs : List LocalPack
  stage : Stage
  uploaded : ℕ
  skipped : ℕ
  deriving DecidableEq

/-- The import as it is published, from the run that made it and the manifest it replaced. -/
structure Published where
  request : Request
  packs : List LocalPack
  base : Option (ℕ × Manifest)
  before : Option (ℕ × Item)
  made : DirectImport
  result : Manifest

/-- The bucket, the marker file and the run that goes on; of the past, the requests, those that
were verified, and what was published. -/
structure Site where
  bucket : Bucket
  marker : Option ImportMarker
  run : Option Run
  begun : List Request
  verified : List Request
  published : List Published

inductive Move where
  | begin (q : Request)
  | verified
  | sideFiles (size : ℕ)
  | history (pack : Option LocalPack)
  | upload
  | candidates (now : Timestamp)
  | checkpoint (attempt : String)
  | publish
  /-- The run ends, by an error or because it is killed. -/
  | stop
  /-- Somebody else writes. -/
  | other (key : String) (item : Item)
  deriving DecidableEq

/-- Git's check of the tips against the packs, the hash of a set of refs, and the key of a
snapshot of refs. -/
structure Tools where
  verifyRefsInPacks : List LocalPack → List String → Bool → Bool
  tipsHash : RefState → String
  refsKey : RefState → String
  hostname : String

section Code

variable (t : Tools)

namespace Request

def made (q : Request) (packs : List LocalPack) (seq : ℕ) (now : Timestamp) : DirectImport where
  repo := q.repo
  packs := packs.map fun p => p.packRef seq now
  refs := q.refs
  historyPack := q.historyPack
  replace := q.replace
  seq := seq
  createdAt := now
  writer := "walgit-import@" ++ t.hostname

def tips (q : Request) : List String := q.refs.refs.entries.map Prod.snd

end Request

def headSeq (base : Option (ℕ × Manifest)) : ℕ := (base.map fun b => b.2.headSeq).getD 0

/-- The manifest with its version; no result where something else stands there. -/
def readManifest (b : Bucket) : Option (Option (ℕ × Manifest)) :=
  match b.objects manifestKey with
  | none => some none
  | some (v, .manifest m) => some (some (v, m))
  | some _ => none

def startMarker (q : Request) (base : Option (ℕ × Manifest)) : ImportMarker where
  repo := q.repo
  tipsHash := t.tipsHash q.refs
  baseManifestVersion := base.map Prod.fst
  baseHeadSeq := headSeq base
  seq := headSeq base + 1
  phase := .started
  uploaded := []
  historyPack := none

/-- An object is there with its size. -/
def holds (b : Bucket) (o : String × ℕ) : Bool :=
  match b.objects o.1 with
  | some (_, .file size) => size = o.2
  | _ => false

/-- A candidate is never overwritten; one that is there must be the same. -/
def putCandidate (b : Bucket) (key : String) (item : Item) : Option Bucket :=
  match b.put key item .create with
  | some b' => some b'
  | none => if (b.objects key).map Prod.snd = some item then some b else none

/-- What the swap of the manifest is conditional on. -/
def updateMode (base : Option (ℕ × Manifest)) : ObjectStore.PutMode :=
  match base with
  | some (v, _) => .update v
  | none => .create

def hex16 (n : ℕ) : String := String.ofList (List.leftpad 16 '0' (Nat.toDigits 16 n))

def checkpointAttemptKey (seq : ℕ) (attempt : String) : String :=
  "checkpoints/" ++ hex16 seq ++ "/attempts/" ++ attempt ++ "/checkpoint.pb"

def ImportMarker.complete (m : ImportMarker) (phase : ImportPhase) : ImportMarker :=
  { m with phase := phase }

def ImportMarker.land (m : ImportMarker) (key : String) : ImportMarker :=
  { m with uploaded := m.uploaded ++ [key] }

namespace Site

variable (s : Site)

def go (r : Run) : Site := { s with run := some r }

/-- The run goes on with its marker written. -/
def save (r : Run) : Site := { s with marker := some r.marker, run := some r }

def halt : Site := { s with run := none }

def begin (q : Request) : Site :=
  let s := { s with begun := q :: s.begun }
  match readManifest s.bucket with
  | none => s
  | some base =>
    if q.packs = [] then s
    else if base.any fun b => (q.made t q.packs 0 default).heldBy b.2 then { s with marker := none }
    else if 0 < headSeq base ∧ q.replace = false then s
    else
      match decideResume s.marker q.repo (t.tipsHash q.refs) (base.map Prod.fst) q.force with
      | .refuse _ _ => s
      | .resume m => s.go ⟨q, base, m, q.packs, .verify, 0, 0⟩
      | .fresh => s.save ⟨q, base, startMarker t q base, q.packs, .verify, 0, 0⟩

def verify (r : Run) : Site :=
  if r.marker.phase.rank < ImportPhase.verified.rank then
    if t.verifyRefsInPacks r.request.packs r.request.tips r.request.verifyClosure then
      { s with verified := r.request :: s.verified }.save
        { r with marker := r.marker.complete .verified, stage := .sideFiles }
    else s.halt
  else s.go { r with stage := .sideFiles }

/-- A graph of the commits is built next to the first pack, if it is asked for and not there. -/
def sideFiles (r : Run) (size : ℕ) : Site :=
  if r.marker.phase.rank < ImportPhase.sideFiles.rank then
    s.save { r with
      packs := r.packs.modifyHead fun p =>
        if r.request.commitGraph && p.commitGraph.isNone then { p with commitGraph := some size }
        else p
      marker := r.marker.complete .sideFiles
      stage := .history }
  else s.go { r with stage := .history }

def history (r : Run) (pack : Option LocalPack) : Site :=
  let missing := r.request.historyPack && r.packs.all fun p => p.historyOf.isNone
  match if missing then pack else none with
  | some p =>
    let marker := { r.marker with historyPack := some p.checksum }
    let r := { r with packs := r.packs ++ [p], marker := marker, stage := .packs (r.packs ++ [p]) }
    if marker.phase.rank < ImportPhase.historyPack.rank then
      s.save { r with marker := marker.complete .historyPack }
    else s.go r
  | none =>
    if missing then s.halt
    else if r.marker.phase.rank < ImportPhase.historyPack.rank then
      s.save { r with marker := r.marker.complete .historyPack, stage := .packs r.packs }
    else s.go { r with stage := .packs r.packs }

/-- The next step of the uploads: skip what the marker names or a look into the bucket found, put
the rest, and write the marker after each put. -/
def upload (r : Run) : Option Site :=
  match r.stage with
  | .packs [] =>
    if r.marker.phase.rank < ImportPhase.uploaded.rank then
      some (s.save { r with marker := r.marker.complete .uploaded, stage := .candidates })
    else some (s.go { r with stage := .candidates })
  | .packs (p :: ps) =>
    let found := p.objects.filter fun o => o.1 ∉ r.marker.uploaded && holds s.bucket o
    some (s.go { r with
      stage := .objects (r.marker.uploaded ++ found.map Prod.fst) p.objects ps })
  | .objects _ [] ps => some (s.go { r with stage := .packs ps })
  | .objects present (o :: os) ps =>
    if o.1 ∈ present then
      some (s.go { r with
        marker := if o.1 ∈ r.marker.uploaded then r.marker else r.marker.land o.1
        skipped := r.skipped + 1
        stage := .objects present os ps })
    else some ({ s with bucket := s.bucket.write o.1 (.file o.2) }.go
      { r with stage := .landed o.1 present os ps })
  | .landed key present os ps =>
    some (s.save { r with
      marker := r.marker.land key
      uploaded := r.uploaded + 1
      stage := .objects present os ps })
  | _ => none

def candidates (r : Run) (now : Timestamp) : Site :=
  let base := (r.base.map Prod.snd).getD {}
  match (r.request.made t r.packs r.marker.seq now).packs.mapM (DirectImport.retained base) with
  | .error _ => s.halt
  | .ok packs =>
    match putCandidate s.bucket (t.refsKey r.request.refs) (.refs r.request.refs) with
    | none => s.halt
    | some b => { s with bucket := b }.go { r with stage := .checkpoint packs now }

def checkpoint (r : Run) (packs : List PackRef) (now : Timestamp) (attempt : String) : Site :=
  match putCandidate s.bucket (checkpointAttemptKey r.marker.seq attempt)
      (.checkpoint r.marker.seq packs (t.refsKey r.request.refs)) with
  | none => s.halt
  | some b => { s with bucket := b }.save
      { r with marker := { r.marker with phase := .checkpointPrepared }, stage := .publish now }

def publish (r : Run) (now : Timestamp) : Site :=
  let made := r.request.made t r.packs r.marker.seq now
  match made.manifest (r.base.map Prod.snd) with
  | .ok (some m) =>
    match s.bucket.put manifestKey (.manifest m) (updateMode r.base) with
    | some b => { s with
        bucket := b
        marker := none
        run := none
        published :=
          ⟨r.request, r.packs, r.base, s.bucket.objects manifestKey, made, m⟩ :: s.published }
    | none => s.halt
  | _ => s.halt

def step (s : Site) (move : Move) : Option Site :=
  match move, s.run with
  | .other key item, _ => some { s with bucket := s.bucket.write key item }
  | .begin q, none => some (s.begin t q)
  | .stop, some _ => some s.halt
  | .verified, some r => if r.stage = .verify then some (s.verify t r) else none
  | .sideFiles size, some r => if r.stage = .sideFiles then some (s.sideFiles r size) else none
  | .history pack, some r => if r.stage = .history then some (s.history r pack) else none
  | .upload, some r => s.upload r
  | .candidates now, some r => if r.stage = .candidates then some (s.candidates t r now) else none
  | .checkpoint attempt, some r =>
    match r.stage with
    | .checkpoint packs now => some (s.checkpoint t r packs now attempt)
    | _ => none
  | .publish, some r =>
    match r.stage with
    | .publish now => some (s.publish t r now)
    | _ => none
  | _, _ => none

def runMoves (s : Site) (moves : List Move) : Option Site := moves.foldlM (step t) s

end Site

end Code

end Walgit.Importing
