import Walgit.SortedMap

/-!
# Wire messages

The messages of `walgit.v1` that the publish, checkpoint and sync paths read or
write. A content-addressed key (`refs_key`, `forge_key`) is represented by the
content it names, since the store only ever holds those bytes under it.
-/
namespace Walgit

/-- Protobuf timestamp; both fields are signed on the wire. -/
structure Timestamp where
  seconds : ℤ
  nanos : ℤ
  deriving DecidableEq, Repr, Inhabited

namespace Timestamp

/-- `time::to_system`: nanoseconds since the epoch, negative parts clamped to zero. -/
def toSystem (t : Timestamp) : ℕ := t.seconds.toNat * 1000000000 + t.nanos.toNat

/-- `time::from_system`. -/
def fromSystem (ns : ℕ) : Timestamp := ⟨(ns / 1000000000 : ℕ), (ns % 1000000000 : ℕ)⟩

theorem toSystem_fromSystem (ns : ℕ) : (fromSystem ns).toSystem = ns := by
  simp only [toSystem, fromSystem, Int.toNat_natCast]
  omega

end Timestamp

/-- Object keys relative to the repository prefix. -/
inductive Key where
  | manifest
  | log (seq : ℕ)
  deriving DecidableEq, Repr

structure RefUpdate where
  name : String
  oldOid : String
  newOid : String
  newSymbolicTarget : String
  deriving DecidableEq, Repr, Inhabited

structure RefTransaction where
  updates : List RefUpdate
  pushOptions : List String
  atomic : Bool
  deriving DecidableEq, Repr, Inhabited

inductive PackKind where
  | objects
  | history
  | blobs
  deriving DecidableEq, Repr, Inhabited

inductive PackAudience where
  | unspecified
  | code
  | metadata
  | retained
  deriving DecidableEq, Repr, Inhabited

structure PackGroupCoverage where
  group : String
  refPolicy : String
  coversSeq : ℕ
  packs : List String
  refsKey : String
  deriving DecidableEq, Repr

structure PackRef where
  checksum : String
  packSize : ℕ := 0
  idxSize : ℕ := 0
  hasRev : Bool := false
  hasBitmap : Bool := false
  objectCount : ℕ := 0
  seq : ℕ := 0
  tier : ℕ := 0
  hasCommitGraph : Bool := false
  kind : PackKind := .objects
  derivedFrom : String := ""
  coversSeq : ℕ := 0
  publishedAt : Option Timestamp := none
  audience : PackAudience := .unspecified
  refPolicy : String := ""
  packGroups : List String := []
  groupCoverages : List PackGroupCoverage := []
  coverageRefsKey : String := ""
  deriving DecidableEq, Repr

structure RetiredPack where
  checksum : String
  retiredAt : Option Timestamp
  retiredSeq : ℕ
  deriving DecidableEq, Repr

inductive Visibility where
  | publicRepo
  | internalRepo
  | privateRepo
  deriving DecidableEq, Repr, Inhabited

inductive AccessRole where
  | none
  | read
  | triage
  | write
  | maintain
  | admin
  deriving DecidableEq, Repr, Inhabited

structure RepoAccess where
  visibility : Visibility
  collaborators : SortedMap String AccessRole
  revision : ℕ
  author : String
  updatedAt : Option Timestamp
  message : String
  deriving DecidableEq

structure RepoSettings where
  toml : String
  revision : ℕ
  author : String
  updatedAt : Option Timestamp
  message : String
  deriving DecidableEq, Repr

inductive ForgeKind where
  | unspecified
  | issue
  | pull
  deriving DecidableEq, Repr, Inhabited

structure ForgeOpened where
  kind : ForgeKind
  title : String
  body : String
  labels : List String
  assignees : List String
  baseRef : String
  headRef : String
  baseOid : String
  headOid : String
  draft : Bool
  deriving DecidableEq, Repr, Inhabited

structure ForgeComment where
  body : String
  deriving DecidableEq, Repr, Inhabited

inductive ForgeChange where
  | title (title : String)
  | body (body : String)
  | deleted (deleted : Bool)
  deriving DecidableEq, Repr

/-- Edits the item when `commentId` is zero, otherwise one comment. -/
structure ForgeEdit where
  commentId : ℕ
  change : Option ForgeChange
  deriving DecidableEq, Repr, Inhabited

structure ForgeStateChange where
  closed : Bool
  reason : String
  baseOid : String
  headOid : String
  deriving DecidableEq, Repr, Inhabited

structure ForgeSetChange where
  add : List String
  remove : List String
  deriving DecidableEq, Repr, Inhabited

structure ForgeLineComment where
  path : String
  side : String
  line : ℕ
  body : String
  deriving DecidableEq, Repr

structure ForgeReview where
  state : String
  body : String
  commitOid : String
  comments : List ForgeLineComment
  deriving DecidableEq, Repr, Inhabited

structure ForgeMerged where
  method : String
  mergeCommitOid : String
  baseOid : String
  headOid : String
  deriving DecidableEq, Repr, Inhabited

structure ForgeDraft where
  draft : Bool
  deriving DecidableEq, Repr, Inhabited

structure ForgeLabel where
  name : String
  color : String
  description : String
  deleted : Bool
  deriving DecidableEq, Repr, Inhabited

inductive ForgeBody where
  | opened (o : ForgeOpened)
  | comment (c : ForgeComment)
  | edit (e : ForgeEdit)
  | state (s : ForgeStateChange)
  | labels (c : ForgeSetChange)
  | assignees (c : ForgeSetChange)
  | review (r : ForgeReview)
  | merged (m : ForgeMerged)
  | draft (d : ForgeDraft)
  | label (l : ForgeLabel)
  deriving DecidableEq, Repr

structure ForgeEvent where
  number : ℕ
  actor : String
  actorId : String
  body : Option ForgeBody
  deriving DecidableEq, Repr, Inhabited

structure ForgeRecord where
  seq : ℕ
  at? : Option Timestamp
  events : List ForgeEvent
  deriving DecidableEq, Repr

structure ForgeHistory where
  seq : ℕ
  records : List ForgeRecord
  deriving DecidableEq, Repr

/-- An event of the account log; `unset` carries no body. -/
inductive AccountEvent where
  | unset
  | genesis (reserved : List String)
  | userCreated (userId login email name avatarUrl : String)
  | identityLinked (userId issuer subject : String)
  | profileChanged (userId email name avatarUrl : String)
  | namespaceReserved (login : String)
  | orgCreated (orgId login : String) (owners : List String)
  | orgOwnersChanged (orgId : String) (owners : List String)
  | passwordSet (userId phc : String)
  deriving DecidableEq, Repr

structure AccountRecord where
  seq : ℕ
  at? : Option Timestamp
  events : List AccountEvent
  deriving DecidableEq, Repr

structure AccountHistory where
  seq : ℕ
  records : List AccountRecord
  deriving DecidableEq, Repr

/-- Ref names with their object ids, and the symbolic target of HEAD. -/
structure RefState where
  refs : SortedMap String String
  headTarget : String
  deriving DecidableEq, Repr, Inhabited

structure CheckpointRef where
  seq : ℕ
  createdAt : Option Timestamp
  firstStateAt : Option Timestamp
  asOf : Option Timestamp
  refs : RefState
  forge : Option ForgeHistory
  deriving DecidableEq, Repr

inductive EntryKind where
  | unspecified
  | push
  | compact
  | refUpdate
  | checkpoint
  | settings
  | forge
  | account
  | access
  deriving DecidableEq, Repr, Inhabited

structure LogEntry where
  seq : ℕ := 0
  kind : EntryKind := .unspecified
  pack : Option PackRef := none
  txn : Option RefTransaction := none
  supersedes : List String := []
  createdAt : Option Timestamp := none
  writer : String := ""
  metadata : SortedMap String String := .empty
  settings : Option RepoSettings := none
  forge : List ForgeEvent := []
  account : List AccountEvent := []
  access : Option RepoAccess := none
  deriving DecidableEq, Inhabited

structure LogSegmentRef where
  key : Key
  firstSeq : ℕ
  lastSeq : ℕ
  size : ℕ
  isSealed : Bool
  deriving DecidableEq, Repr

structure Manifest where
  headSeq : ℕ := 0
  minSeq : ℕ := 0
  checkpoint : Option CheckpointRef := none
  logSegments : List LogSegmentRef := []
  packs : List PackRef := []
  updatedAt : Option Timestamp := none
  writer : String := ""
  revision : ℕ := 0
  settings : Option RepoSettings := none
  retiredPacks : List RetiredPack := []
  forgeNextNumber : ℕ := 0
  access : Option RepoAccess := none
  deriving DecidableEq, Inhabited

namespace Manifest

/-- Sequence folded into the checkpoint; zero when there is none. -/
def checkpointSeq (m : Manifest) : ℕ := (m.checkpoint.map CheckpointRef.seq).getD 0

end Manifest

end Walgit
