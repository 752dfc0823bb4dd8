import Walgit.Proto

/-!
# The pack inventory

Classification, retirement and certificate pruning of the manifest's live packs.
-/
namespace Walgit

structure PackClassification where
  checksum : String
  kind : PackKind
  audience : PackAudience
  refPolicy : String
  packGroups : List String
  coversSeq : ℕ
  coverageRefsKey : String
  groupCoverages : List PackGroupCoverage
  deriving DecidableEq, Repr

namespace PackClassification

def fromPack (p : PackRef) : PackClassification :=
  ⟨p.checksum, p.kind, p.audience, p.refPolicy, p.packGroups, p.coversSeq, p.coverageRefsKey,
    p.groupCoverages⟩

def apply (c : PackClassification) (p : PackRef) : PackRef :=
  { p with
    kind := c.kind
    audience := c.audience
    refPolicy := c.refPolicy
    packGroups := c.packGroups
    coversSeq := c.coversSeq
    coverageRefsKey := c.coverageRefsKey
    groupCoverages := c.groupCoverages }

end PackClassification

/-- The part of the effective configuration that certificates depend on: the identity of the
ref policy and, for each pack group, the groups it subtracts. -/
structure PackPolicy where
  identity : String
  subtract : SortedMap String (List String)
  deriving DecidableEq

namespace Manifest

/-- Records live members as retired, each checksum once. -/
def retirePacksAt (m : Manifest) (checksums : List String) (seq : ℕ) (time : Timestamp) :
    Manifest :=
  { m with retiredPacks := m.packs.foldl (fun retired p =>
      if p.checksum ∈ checksums && retired.all (fun r => r.checksum ≠ p.checksum) then
        retired ++ [⟨p.checksum, some time, seq⟩]
      else retired) m.retiredPacks }

/-- A certificate's members and dependencies are all in the inventory. -/
def supports (m : Manifest) (policy : PackPolicy) (proof : PackGroupCoverage) : Bool :=
  proof.refPolicy == policy.identity &&
    match policy.subtract.find? proof.group with
    | none => false
    | some subtract =>
      !proof.packs.isEmpty &&
      proof.packs.all (fun id => m.packs.any fun p =>
        p.checksum == id && p.packGroups.contains proof.group && p.refPolicy == policy.identity &&
          p.coversSeq == proof.coversSeq && p.coverageRefsKey == proof.refsKey) &&
      subtract.all (fun dependency => (m.packs.flatMap PackRef.groupCoverages).any fun c =>
        c.group == dependency && c.refPolicy == policy.identity &&
          c.coversSeq == proof.coversSeq && c.refsKey == proof.refsKey)

/-- One pass over the inventory: unchanged carriers lose unsupported certificates. -/
def pruneOnce (m : Manifest) (policy : PackPolicy) (changed : List String) : Manifest :=
  { m with packs := m.packs.map fun p =>
      if p.checksum ∈ changed then p
      else { p with groupCoverages := p.groupCoverages.filter (m.supports policy) } }

/-- Each pass but the last removes a certificate, so their number bounds the passes. -/
def pruneFor : ℕ → Manifest → PackPolicy → List String → Manifest
  | 0, m, _, _ => m
  | fuel + 1, m, policy, changed =>
    let m' := m.pruneOnce policy changed
    if m'.packs = m.packs then m' else pruneFor fuel m' policy changed

def pruneInvalidCoverages (m : Manifest) (policy : PackPolicy) (changed : List String) :
    Manifest :=
  pruneFor ((m.packs.flatMap PackRef.groupCoverages).length + 1) m policy changed

end Manifest

def samePackBytes (l r : PackRef) : Bool :=
  l.checksum == r.checksum && l.packSize == r.packSize && l.idxSize == r.idxSize &&
    l.objectCount == r.objectCount && l.hasRev == r.hasRev && l.hasBitmap == r.hasBitmap &&
    l.hasCommitGraph == r.hasCommitGraph

/-- A built pack, before it has a place in the log. -/
structure PackInfo where
  checksum : String
  packSize : ℕ
  idxSize : ℕ
  objectCount : ℕ
  hasRev : Bool
  hasBitmap : Bool
  hasCommitGraph : Bool
  historyOf : Option String
  deriving DecidableEq, Repr

def packRefFromInfo (p : PackInfo) (seq tier : ℕ) (now : Timestamp) : PackRef where
  checksum := p.checksum
  packSize := p.packSize
  idxSize := p.idxSize
  hasRev := p.hasRev
  hasBitmap := p.hasBitmap
  hasCommitGraph := p.hasCommitGraph
  objectCount := p.objectCount
  seq := seq
  tier := tier
  kind := if p.historyOf.isSome then .history else .objects
  derivedFrom := p.historyOf.getD ""
  publishedAt := some now

end Walgit
