import Walgit.Certificates
import Walgit.PackGroups
import Walgit.UploadPack

/-!
# Clones by packfile URIs

`select_snapshot` offers packs that lie in the store instead of packing again: for the wants
that are current refs, the certified packs of their groups and of every group these subtract,
at one ref snapshot. The branches of those groups are then had by the client, which gets the
rest in a pack made for it.
-/
namespace Walgit

open Text

structure IndexUri where
  checksum : Oid
  url : String
  deriving DecidableEq, Repr

structure PackfileUri where
  checksum : Oid
  url : String
  index : Option IndexUri
  deriving DecidableEq, Repr

/-- Every root must be covered in the packs offered. -/
structure Selection where
  packs : List PackfileUri
  roots : List Oid
  deriving DecidableEq, Repr

/-- What is read of a fetch view. -/
structure FetchView where
  manifest : Manifest
  refs : RefState
  config : RefsConfig
  maxUrisPerFetch : ℕ
  uriMinBytes : ℕ

/-- The value of a ref; HEAD stands for its target. -/
def RefState.get (s : RefState) (name : String) : Option String :=
  if name ≠ "HEAD" then s.refs.find? name
  else if s.headTarget = "" then none
  else s.refs.find? s.headTarget

namespace FetchView

variable (view : FetchView)

/-- A certificate a carrier brings along, if it is of the policy and the generation. -/
def addProof (policy key : String) (seq : ℕ) (proofs : SortedMap String PackGroupCoverage)
    (carried : PackRef × PackGroupCoverage) : Option (SortedMap String PackGroupCoverage) :=
  let (carrier, proof) := carried
  if proof.refsKey ≠ key || proof.coversSeq ≠ seq || proof.refPolicy ≠ policy then some proofs
  else if !proof.packs.contains carrier.checksum || !carrier.packGroups.contains proof.group then
    none
  else if (proofs.find? proof.group).any fun previous => previous ≠ proof then none
  else some (proofs.insert proof.group proof)

/-- The certificates of one generation by group, as long as the carriers agree. -/
def proofs (policy key : String) (seq : ℕ) : Option (SortedMap String PackGroupCoverage) :=
  (view.manifest.packs.flatMap fun carrier => carrier.groupCoverages.map (carrier, ·)).foldlM
    (addProof policy key seq) .empty

/-- The want a ref of the snapshot still names, and the first certified group that packages it. -/
def coveredWant (proofs : SortedMap String PackGroupCoverage) (wants : List Oid) (r : Ref) :
    Option (Oid × String) := do
  let current ← view.refs.get r.name
  if current ∉ wants then none
  else
    let group ← view.config.packfiles.entries.find? fun g =>
      g.2.kind = .code && g.2.matchesRef r.name view.refs.headTarget && (proofs.find? g.1).isSome
    some (current, group.1)

/-- The packs of a group that are offered. -/
def members (policy key : String) (seq : ℕ) (filter : Option String)
    (proofs : SortedMap String PackGroupCoverage) (group : String) : Option (List String) := do
  let proof ← proofs.find? group
  if proof.packs = [] || !decide proof.packs.Nodup then none
  else
    let ids ← proof.packs.mapM fun id => do
      let pack ← view.manifest.live id
      if pack.refPolicy ≠ policy || pack.coversSeq ≠ seq || pack.coverageRefsKey ≠ key ||
          !pack.packGroups.contains group || pack.audience ≠ .code then none
      else if filter = some "blob:none" then
        match pack.kind with
        | .blobs => some []
        | .history => some [id]
        | .objects => none
      else some [id]
    some ids.flatten

/-- Only branches become synthetic haves. -/
def syntheticRoots (snapshot : RefSnapshot) (groups : List String) : Option (List Oid) :=
  ((snapshot.refs.filter fun r => startsWith "refs/heads/" r.name && groups.any fun name =>
    (view.config.packfiles.find? name).any fun g => g.matchesRef r.name snapshot.headTarget).mapM
      fun r => fromHex r.oid).map fun oids => (SortedMap.setOf oids).keys

def packSize (id : String) : ℕ := ((view.manifest.live id).map PackRef.packSize).getD 0

/-- Larger packs first. -/
def ordered (ids : List String) : List String :=
  ids.insertionSort fun a b =>
    view.packSize b < view.packSize a ∨ (view.packSize a = view.packSize b ∧ a ≤ b)

def packUrl (baseUrl id : String) : String :=
  String.ofList ((baseUrl.toList.reverse.dropWhile (· = '/')).reverse) ++ "/packfiles/" ++ id ++
    ".pack"

/-- `select_snapshot`; `seq` is the sequence of the snapshot. -/
def selectSnapshot (digest : List String → String) (request : UploadPackRequest)
    (snapshot : RefSnapshot) (seq : ℕ) (key baseUrl : String) : Option Selection := do
  let policy := view.config.policyIdentity digest
  let proofs ← view.proofs policy key seq
  let covered := snapshot.refs.filterMap (view.coveredWant proofs request.wants)
  if SortedMap.setOf (covered.map Prod.fst) ≠ SortedMap.setOf request.wants then none
  else
    let groups ← (RefsConfig.required view.config.packfiles (fun g => g.kind = .code)
      (covered.map Prod.snd)).toOption
    let members ← groups.mapM (view.members policy key seq request.filter proofs)
    let selected := (SortedMap.setOf members.flatten).keys
    if selected = [] || view.maxUrisPerFetch < selected.length ||
        !selected.any (fun id =>
          (view.manifest.live id).any fun p => view.uriMinBytes ≤ p.packSize) then none
    else
      let roots ← view.syntheticRoots snapshot groups
      if roots = [] || roots.all (fun oid => request.haves.contains oid) then none
      else
        let packs ← (view.ordered selected).mapM fun id =>
          (fromHex id).map fun checksum => (⟨checksum, packUrl baseUrl id, none⟩ : PackfileUri)
        some ⟨packs, roots⟩

end FetchView

/-- The roots of a selection join the haves of the request. -/
def UploadPackRequest.addRoots (request : UploadPackRequest) (selection : Selection) :
    UploadPackRequest :=
  { request with
    haves := selection.roots.foldl
      (fun haves root => if haves.contains root then haves else haves ++ [root]) request.haves }

end Walgit
