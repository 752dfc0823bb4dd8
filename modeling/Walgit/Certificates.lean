import Mathlib.Algebra.Order.BigOperators.Group.List
import Walgit.Packs
import Walgit.RefsConfig

/-!
# Coverage certificates

`validate_certificates` checks the packs a write changed: their classification and, from
their certificates on, every certificate these rest on. The walk visits a certificate once
for each group, generation, refs key and member list; the policy is not part of that key.
-/
namespace Walgit

/-- The effective packing configuration: the policy and the kind of each of its groups. -/
structure PackConfig where
  policy : PackPolicy
  kind : String → PackGroupKind

/-- What a check reads of a ref snapshot. -/
structure SnapshotHead where
  seq : ℕ
  objectFormat : String
  deriving DecidableEq, Repr

/-- A snapshot a producer supplies before it is committed. -/
structure CoverageSnapshot where
  key : String
  repo : String
  snapshot : SnapshotHead
  deriving DecidableEq, Repr

namespace PackConfig

def hasGroup (cfg : PackConfig) (group : String) : Bool := (cfg.policy.subtract.find? group).isSome

/-- The groups a certified group subtracts. -/
def subtractOf (cfg : PackConfig) (group : String) : Except String (List String) :=
  match cfg.policy.subtract.find? group with
  | some subtract => pure subtract
  | none => throw "coverage names an unknown group"

/-- The audience a pack must have as a member of a group of this kind. -/
def audienceMatches (cfg : PackConfig) (kind : PackGroupKind) (pack : PackRef) : Bool :=
  let code := pack.packGroups.any fun g => cfg.hasGroup g && cfg.kind g == .code
  match kind with
  | .code => pack.audience == .code
  | .metadata => pack.audience == if code then .code else .metadata

end PackConfig

/-- What `validate_certificates` reads besides the two manifests. -/
structure CertificateInput where
  cfg : PackConfig
  repo : String
  objectFormat : String
  candidates : List CoverageSnapshot
  readSnapshot : String → ℕ → Except String SnapshotHead
  /-- The content key of the refs a checkpoint stored. -/
  checkpointKey : CheckpointRef → String

abbrev CertificateKey := String × ℕ × String × List String

namespace PackGroupCoverage

def key (c : PackGroupCoverage) : CertificateKey := (c.group, c.coversSeq, c.refsKey, c.packs)

/-- The certificate has the group, generation and policy a dependency needs. -/
def answers (policy dependency : String) (proof c : PackGroupCoverage) : Bool :=
  c.group == dependency && c.coversSeq == proof.coversSeq && c.refsKey == proof.refsKey &&
    c.refPolicy == policy

end PackGroupCoverage

namespace Manifest

def certificates (m : Manifest) : List PackGroupCoverage := m.packs.flatMap PackRef.groupCoverages

/-- The pack under a checksum; of several copies the last one. -/
def live (m : Manifest) (checksum : String) : Option PackRef :=
  m.packs.reverse.find? fun p => p.checksum == checksum

end Manifest

namespace CertificateInput

variable (inp : CertificateInput) (before after : Manifest)

def checkGroup (pack : PackRef) (group : String) : Except String Unit :=
  if group = "_retained" then
    if pack.audience ≠ .retained || !pack.groupCoverages.isEmpty then
      throw "retained packs cannot carry group coverage"
    else pure ()
  else if !inp.cfg.hasGroup group then throw ("unknown pack group " ++ group)
  else if pack.refPolicy ≠ inp.cfg.policy.identity ||
      !inp.cfg.audienceMatches (inp.cfg.kind group) pack then
    throw "pack classification has stale policy or wrong audience"
  else pure ()

def checkMember (proof : PackGroupCoverage) (member : String) : Except String Unit :=
  match after.live member with
  | none => throw ("coverage member " ++ member ++ " is not live")
  | some p =>
    if !p.packGroups.contains proof.group || p.refPolicy ≠ inp.cfg.policy.identity ||
        p.coversSeq ≠ proof.coversSeq || p.coverageRefsKey ≠ proof.refsKey then
      throw "coverage member scope changed"
    else if !inp.cfg.audienceMatches (inp.cfg.kind proof.group) p then
      throw "coverage member audience changed"
    else pure ()

/-- The snapshot a certificate covers: read before, supplied, or committed. -/
def findSnapshot (cache : SortedMap String SnapshotHead) (proof : PackGroupCoverage) :
    Except String SnapshotHead :=
  match cache.find? proof.refsKey with
  | some cached => pure cached
  | none =>
    match inp.candidates.find? fun s => s.key == proof.refsKey with
    | some candidate =>
      if candidate.repo ≠ inp.repo then throw "coverage candidate belongs to another repository"
      else pure candidate.snapshot
    | none =>
      if before.certificates.any (fun c =>
            c.refsKey == proof.refsKey && c.coversSeq == proof.coversSeq) ||
          before.checkpoint.any (fun cp =>
            inp.checkpointKey cp == proof.refsKey && cp.seq == proof.coversSeq) then
        inp.readSnapshot proof.refsKey proof.coversSeq
      else throw "coverage snapshot is not committed or supplied by its producer"

/-- The one certificate of a dependency in the same generation. -/
def dependencyProof (proof : PackGroupCoverage) (dependency : String) :
    Except String PackGroupCoverage :=
  let answers := PackGroupCoverage.answers inp.cfg.policy.identity dependency proof
  match after.certificates.find? answers with
  | none => throw ("missing same-generation coverage for dependency " ++ dependency)
  | some found =>
    if after.certificates.any (fun c => answers c && c.packs ≠ found.packs) then
      throw "conflicting dependency coverage"
    else pure found

/-- One visit of the walk: all checks of a certificate, and what it depends on. -/
def checkProof (cache : SortedMap String SnapshotHead) (proof : PackGroupCoverage) :
    Except String (SortedMap String SnapshotHead × List PackGroupCoverage) := do
  if proof.refPolicy ≠ inp.cfg.policy.identity || before.headSeq < proof.coversSeq ||
      proof.refsKey = "" then
    throw "coverage policy or captured generation is invalid"
  let subtract ← inp.cfg.subtractOf proof.group
  if proof.packs.isEmpty || !decide proof.packs.Nodup then
    throw "coverage members are empty or duplicated"
  proof.packs.forM (inp.checkMember after proof)
  let snapshot ← inp.findSnapshot before cache proof
  if snapshot.seq ≠ proof.coversSeq || snapshot.objectFormat ≠ inp.objectFormat then
    throw "coverage snapshot generation mismatch"
  let proofs ← subtract.mapM (inp.dependencyProof after proof)
  pure (cache.insert proof.refsKey snapshot, proofs)

/-- The certificates that are validated and the snapshots that were read. -/
abbrev Progress := List CertificateKey × SortedMap String SnapshotHead

/-- Enough visits for every certificate and all it pushes. -/
def fuel (pack : PackRef) : ℕ :=
  (pack.groupCoverages ++ after.certificates).length *
    ((inp.cfg.policy.subtract.values.map List.length).sum + 1) + 1

def checkCoverage (pack : PackRef) (s : Progress) (coverage : PackGroupCoverage) :
    Except String Progress := do
  if !pack.packGroups.contains coverage.group || pack.coverageRefsKey ≠ coverage.refsKey ||
      !coverage.packs.contains pack.checksum then
    throw "coverage carrier is outside its certificate"
  match Worklist.walk PackGroupCoverage.key (inp.checkProof before after) (inp.fuel after pack) s
      [coverage] with
  | some r => r
  | none => throw "coverage walk did not end"

def checkPack (s : Progress) (checksum : String) : Except String Progress := do
  match after.live checksum with
  | none => throw "classified pack is no longer live"
  | some pack =>
    if !decide pack.packGroups.Nodup then throw "duplicate pack group"
    pack.packGroups.forM (inp.checkGroup pack)
    pack.groupCoverages.foldlM (inp.checkCoverage before after pack) s

def validateCertificates (changed : List String) : Except String Unit := do
  let _ ← changed.foldlM (inp.checkPack before after) ([], .empty)
  pure ()

end CertificateInput

namespace Manifest

theorem live_eq_some {m : Manifest} {checksum : String} {p : PackRef}
    (h : m.live checksum = some p) : p ∈ m.packs ∧ p.checksum = checksum :=
  ⟨List.mem_reverse.mp (List.mem_of_find?_eq_some h), by simpa using List.find?_some h⟩

/-- What a certificate needs of the inventory, one by one. -/
theorem supports_iff {m : Manifest} {policy : PackPolicy} {proof : PackGroupCoverage} :
    m.supports policy proof ↔ proof.refPolicy = policy.identity ∧
      ∃ subtract, policy.subtract.find? proof.group = some subtract ∧ proof.packs ≠ [] ∧
        (∀ id ∈ proof.packs, ∃ p ∈ m.packs, p.checksum = id ∧ proof.group ∈ p.packGroups ∧
          p.refPolicy = policy.identity ∧ p.coversSeq = proof.coversSeq ∧
          p.coverageRefsKey = proof.refsKey) ∧
        ∀ dependency ∈ subtract, ∃ c ∈ m.certificates, c.group = dependency ∧
          c.refPolicy = policy.identity ∧ c.coversSeq = proof.coversSeq ∧
          c.refsKey = proof.refsKey := by
  unfold supports
  cases policy.subtract.find? proof.group with
  | none => simp
  | some subtract =>
    simp only [Bool.and_eq_true, beq_iff_eq, List.all_eq_true, List.any_eq_true,
      List.contains_iff_mem, Bool.not_eq_true', List.isEmpty_eq_false_iff, Option.some.injEq,
      exists_eq_left', certificates, and_assoc]

/-- A certificate is supported as much as one of the same key and policy. -/
theorem supports_congr {m : Manifest} {policy : PackPolicy} {c d : PackGroupCoverage}
    (hkey : c.key = d.key) (hpolicy : c.refPolicy = d.refPolicy) :
    m.supports policy c = m.supports policy d := by
  simp only [PackGroupCoverage.key, Prod.mk.injEq] at hkey
  obtain ⟨hgroup, hseq, hrefs, hpacks⟩ := hkey
  simp only [supports, hgroup, hseq, hrefs, hpacks, hpolicy]

end Manifest

namespace CertificateInput

variable {inp : CertificateInput} {before after : Manifest}

theorem checkMember_ok {proof : PackGroupCoverage} {member : String}
    (h : inp.checkMember after proof member = .ok ()) :
    ∃ p ∈ after.packs, p.checksum = member ∧ proof.group ∈ p.packGroups ∧
      p.refPolicy = inp.cfg.policy.identity ∧ p.coversSeq = proof.coversSeq ∧
      p.coverageRefsKey = proof.refsKey := by
  unfold checkMember at h
  split at h
  · cases h
  · rename_i p hlive
    obtain ⟨hmem, hchecksum⟩ := Manifest.live_eq_some hlive
    simp only [Checks.last_ok, Bool.or_eq_true, not_or, decide_eq_true_eq, not_not, ne_eq,
      Bool.not_eq_true', Bool.not_eq_false, List.contains_iff_mem] at h
    obtain ⟨⟨⟨⟨hgroup, hpolicy⟩, hseq⟩, hkey⟩, -⟩ := h
    exact ⟨p, hmem, hchecksum, hgroup, hpolicy, hseq, hkey⟩

theorem dependencyProof_ok {proof found : PackGroupCoverage} {dependency : String}
    (h : inp.dependencyProof after proof dependency = .ok found) :
    found ∈ after.certificates ∧ found.group = dependency ∧
      found.refPolicy = inp.cfg.policy.identity ∧ found.coversSeq = proof.coversSeq ∧
      found.refsKey = proof.refsKey := by
  simp only [dependencyProof] at h
  split at h
  · cases h
  · rename_i c hfind
    rw [Checks.last_ok] at h
    cases h.2
    have hanswers := List.find?_some hfind
    simp only [PackGroupCoverage.answers, Bool.and_eq_true, beq_iff_eq] at hanswers
    obtain ⟨⟨⟨hgroup, hseq⟩, hkey⟩, hpolicy⟩ := hanswers
    exact ⟨List.mem_of_find?_eq_some hfind, hgroup, hpolicy, hseq, hkey⟩

/-- A certificate that passes its checks is supported, and the walk goes on with committed
certificates only, no more than its group subtracts. -/
theorem checkProof_ok {cache : SortedMap String SnapshotHead} {proof : PackGroupCoverage}
    {r : SortedMap String SnapshotHead × List PackGroupCoverage}
    (h : inp.checkProof before after cache proof = .ok r) :
    after.supports inp.cfg.policy proof ∧ (∀ c ∈ r.2, c ∈ after.certificates) ∧
      ∃ subtract ∈ inp.cfg.policy.subtract.values, r.2.length = subtract.length := by
  simp only [checkProof, Checks.guard_ok, Checks.bind_eq_ok] at h
  obtain ⟨hfirst, subtract, hsubtract, hmembers, _, hall, snapshot, -, -, proofs, hproofs, hr⟩ := h
  cases hr
  have hgroup : inp.cfg.policy.subtract.find? proof.group = some subtract := by
    unfold PackConfig.subtractOf at hsubtract
    split at hsubtract
    · rename_i found hfound
      cases hsubtract
      exact hfound
    · cases hsubtract
  obtain ⟨hlength, hdeps, hback⟩ := Checks.mapM_ok hproofs
  simp only [Bool.or_eq_true, decide_eq_true_eq, not_or, not_not, ne_eq] at hfirst hmembers
  refine ⟨Manifest.supports_iff.mpr ⟨hfirst.1.1, subtract, hgroup, by simpa using hmembers.1,
    fun id hid => checkMember_ok (Checks.forM_ok.mp hall id hid), fun dependency hd => ?_⟩, ?_,
    subtract, SortedMap.mem_values.mpr ⟨proof.group, hgroup⟩, hlength⟩
  · obtain ⟨c, hc⟩ := hdeps dependency hd
    exact ⟨c, dependencyProof_ok hc⟩
  · intro c hc
    obtain ⟨dependency, -, hd⟩ := hback c hc
    exact (dependencyProof_ok hd).1

/-- The walk from a certificate of a pack always ends. -/
theorem walk_isSome (pack : PackRef) (s : Progress) {coverage : PackGroupCoverage}
    (hc : coverage ∈ pack.groupCoverages) :
    (Worklist.walk PackGroupCoverage.key (inp.checkProof before after) (inp.fuel after pack) s
      [coverage]).isSome := by
  let items := pack.groupCoverages ++ after.certificates
  let width := (inp.cfg.policy.subtract.values.map List.length).sum
  have hclosed : ∀ cache proof t more, inp.checkProof before after cache proof = .ok (t, more) →
      (∀ c ∈ more, c ∈ items) ∧ more.length ≤ width := by
    intro cache proof t more hvisit
    obtain ⟨-, hcommitted, subtract, hmem, hlength⟩ := checkProof_ok hvisit
    refine ⟨fun c hc => List.mem_append_right _ (hcommitted c hc), ?_⟩
    rw [show more.length = subtract.length from hlength]
    exact List.le_sum_of_mem (List.mem_map_of_mem hmem)
  have hpending : ∀ c ∈ [coverage], c ∈ items := by
    intro c hmem
    rw [List.mem_singleton.mp hmem]
    exact List.mem_append_left _ hc
  refine Worklist.walk_isSome hclosed hpending ?_
  have hle : Worklist.fresh PackGroupCoverage.key items s.1 ≤ items.length :=
    List.length_filter_le ..
  exact Nat.add_le_add_right (Nat.mul_le_mul_right _ hle) 1

/-- Every key validated so far belongs to a supported certificate. -/
def Progress.Sound (inp : CertificateInput) (after : Manifest) (s : Progress) : Prop :=
  ∀ k ∈ s.1, ∃ c, c.key = k ∧ after.supports inp.cfg.policy c

theorem checkCoverage_ok {pack : PackRef} {s s' : Progress} {coverage : PackGroupCoverage}
    (hs : s.Sound inp after) (h : inp.checkCoverage before after pack s coverage = .ok s') :
    s'.Sound inp after ∧ (∀ k ∈ s.1, k ∈ s'.1) ∧ coverage.key ∈ s'.1 := by
  simp only [checkCoverage, Checks.guard_ok] at h
  obtain ⟨-, h⟩ := h
  split at h
  · rename_i r hwalk
    subst h
    obtain ⟨hkept, hstack, hsound⟩ := Worklist.walk_sound hwalk
    refine ⟨fun k hk => ?_, hkept, hstack coverage List.mem_cons_self⟩
    rcases hsound k hk with hold | ⟨c, t, r, hkey, hvisit⟩
    · exact hs k hold
    · exact ⟨c, hkey, (checkProof_ok hvisit).1⟩
  · cases h

theorem checkCoverages_ok {pack : PackRef} {s s' : Progress} {coverages : List PackGroupCoverage}
    (hs : s.Sound inp after)
    (h : coverages.foldlM (inp.checkCoverage before after pack) s = .ok s') :
    s'.Sound inp after ∧ (∀ k ∈ s.1, k ∈ s'.1) ∧ ∀ c ∈ coverages, c.key ∈ s'.1 := by
  induction coverages generalizing s with
  | nil =>
    cases h
    exact ⟨hs, fun _ hk => hk, by simp⟩
  | cons c coverages ih =>
    rw [List.foldlM_cons, Checks.bind_eq_ok] at h
    obtain ⟨t, ht, hrest⟩ := h
    obtain ⟨hsound, hkept, hkey⟩ := checkCoverage_ok hs ht
    obtain ⟨hsound', hkept', hkeys⟩ := ih hsound hrest
    refine ⟨hsound', fun k hk => hkept' k (hkept k hk), ?_⟩
    rw [List.forall_mem_cons]
    exact ⟨hkept' _ hkey, hkeys⟩

theorem checkPacks_ok {changed : List String} {s s' : Progress} (hs : s.Sound inp after)
    (h : changed.foldlM (inp.checkPack before after) s = .ok s') :
    s'.Sound inp after ∧ (∀ k ∈ s.1, k ∈ s'.1) ∧ ∀ id ∈ changed, ∃ pack,
      after.live id = some pack ∧ ∀ c ∈ pack.groupCoverages, c.key ∈ s'.1 := by
  induction changed generalizing s with
  | nil =>
    cases h
    exact ⟨hs, fun _ hk => hk, by simp⟩
  | cons id changed ih =>
    rw [List.foldlM_cons, Checks.bind_eq_ok] at h
    obtain ⟨t, ht, hrest⟩ := h
    unfold checkPack at ht
    split at ht
    · cases ht
    · rename_i pack hlive
      simp only [Checks.guard_ok, Checks.bind_eq_ok] at ht
      obtain ⟨-, _, -, ht⟩ := ht
      obtain ⟨hsound, hkept, hkeys⟩ := checkCoverages_ok hs ht
      obtain ⟨hsound', hkept', hpacks⟩ := ih hsound hrest
      refine ⟨hsound', fun k hk => hkept' k (hkept k hk), ?_⟩
      rw [List.forall_mem_cons]
      exact ⟨⟨pack, hlive, fun c hc => hkept' _ (hkeys c hc)⟩, hpacks⟩

/-- In a validated write, the certificates of a changed pack that name the policy in force are
supported; of several copies of the pack this is about the last. -/
theorem validateCertificates_ok {changed : List String}
    (h : inp.validateCertificates before after changed = .ok ()) {id : String} (hid : id ∈ changed) :
    ∃ pack, after.live id = some pack ∧ ∀ c ∈ pack.groupCoverages,
      c.refPolicy = inp.cfg.policy.identity → after.supports inp.cfg.policy c := by
  simp only [validateCertificates, Checks.bind_eq_ok] at h
  obtain ⟨s, hs, -⟩ := h
  obtain ⟨hsound, -, hpacks⟩ := checkPacks_ok (fun k hk => by simp at hk) hs
  obtain ⟨pack, hlive, hkeys⟩ := hpacks id hid
  refine ⟨pack, hlive, fun c hc hpolicy => ?_⟩
  obtain ⟨d, hkey, hd⟩ := hsound c.key (hkeys c hc)
  have hsame : c.refPolicy = d.refPolicy := hpolicy.trans (Manifest.supports_iff.mp hd).1.symm
  rw [Manifest.supports_congr hkey.symm hsame]
  exact hd

end CertificateInput

end Walgit
