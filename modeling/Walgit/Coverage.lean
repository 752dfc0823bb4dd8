import Walgit.Certificates
import Walgit.Chain

/-!
# Certificates over the life of a repository

Pushes, compactions, reclassifications and seals in any order. Pruning reaches a fixpoint on
the packs a write leaves alone, and validation covers the ones it changes, as long as a
changed pack has one copy in the inventory.
-/
namespace Walgit

/-- The fields of a pack that certificates rest on. -/
def PackRef.scope (p : PackRef) :
    String × List String × String × ℕ × String × List PackGroupCoverage :=
  (p.checksum, p.packGroups, p.refPolicy, p.coversSeq, p.coverageRefsKey, p.groupCoverages)

namespace Manifest

theorem mem_certificates {m : Manifest} {c : PackGroupCoverage} :
    c ∈ m.certificates ↔ ∃ p ∈ m.packs, c ∈ p.groupCoverages :=
  List.mem_flatMap

/-- An inventory that has every pack of another supports what the other does. -/
theorem supports_mono {m m' : Manifest} (h : ∀ p ∈ m.packs, ∃ p' ∈ m'.packs, p'.scope = p.scope)
    {policy : PackPolicy} {c : PackGroupCoverage} (hc : m.supports policy c) :
    m'.supports policy c := by
  obtain ⟨hpolicy, subtract, hsubtract, hne, hmembers, hdeps⟩ := supports_iff.mp hc
  refine supports_iff.mpr ⟨hpolicy, subtract, hsubtract, hne, fun id hid => ?_, fun d hd => ?_⟩
  · obtain ⟨p, hp, hfields⟩ := hmembers id hid
    obtain ⟨p', hp', hscope⟩ := h p hp
    simp only [PackRef.scope, Prod.mk.injEq] at hscope
    obtain ⟨hchecksum, hgroups, hrefPolicy, hseq, hkey, -⟩ := hscope
    refine ⟨p', hp', ?_⟩
    rw [hchecksum, hgroups, hrefPolicy, hseq, hkey]
    exact hfields
  · obtain ⟨d', hd', hfields⟩ := hdeps d hd
    obtain ⟨p, hp, hcarried⟩ := mem_certificates.mp hd'
    obtain ⟨p', hp', hscope⟩ := h p hp
    simp only [PackRef.scope, Prod.mk.injEq] at hscope
    exact ⟨d', mem_certificates.mpr ⟨p', hp', hscope.2.2.2.2.2 ▸ hcarried⟩, hfields⟩

theorem supports_packs {m m' : Manifest} (h : m'.packs = m.packs) {policy : PackPolicy}
    {c : PackGroupCoverage} (hc : m.supports policy c) : m'.supports policy c :=
  supports_mono (fun p hp => ⟨p, h ▸ hp, rfl⟩) hc

end Manifest

/-- Rewriting packs one by one without adding certificates: if none is lost, nothing changed. -/
theorem flatMap_map_length_le {f : PackRef → PackRef} {l : List PackRef}
    (hle : ∀ p, (f p).groupCoverages.length ≤ p.groupCoverages.length)
    (heq : ∀ p, (f p).groupCoverages.length = p.groupCoverages.length → f p = p) :
    ((l.map f).flatMap PackRef.groupCoverages).length ≤
        (l.flatMap PackRef.groupCoverages).length ∧
      (((l.map f).flatMap PackRef.groupCoverages).length =
        (l.flatMap PackRef.groupCoverages).length → l.map f = l) := by
  induction l with
  | nil => simp
  | cons p l ih =>
    have hp := hle p
    simp only [List.map_cons, List.flatMap_cons, List.length_append, List.cons.injEq]
    refine ⟨by omega, fun h => ⟨heq p (by omega), ih.2 (by omega)⟩⟩

namespace Manifest

variable (policy : PackPolicy) (changed : List String)

/-- A pass that changes the inventory removes a certificate. -/
theorem certificates_pruneOnce_lt {m : Manifest} (h : (m.pruneOnce policy changed).packs ≠ m.packs) :
    (m.pruneOnce policy changed).certificates.length < m.certificates.length := by
  have hlength := flatMap_map_length_le (l := m.packs)
    (f := fun p => if p.checksum ∈ changed then p
      else { p with groupCoverages := p.groupCoverages.filter (m.supports policy) })
    (fun p => by
      split_ifs
      · exact le_rfl
      · exact List.length_filter_le ..)
    (fun p hp => by
      split_ifs at hp ⊢
      · rfl
      · rw [List.filter_eq_self.mpr (List.length_filter_eq_length_iff.mp hp)])
  exact lt_of_le_of_ne hlength.1 fun heq => h (hlength.2 heq)

theorem pruneOnce_mem {m : Manifest} {p : PackRef} (hp : p ∈ (m.pruneOnce policy changed).packs) :
    ∃ q ∈ m.packs, q.checksum = p.checksum ∧ (q.checksum ∈ changed → p = q) := by
  obtain ⟨q, hq, rfl⟩ := List.mem_map.mp hp
  refine ⟨q, hq, ?_⟩
  split_ifs with hc
  · exact ⟨rfl, fun _ => rfl⟩
  · exact ⟨rfl, fun h => absurd h hc⟩

theorem pruneOnce_checksums (m : Manifest) :
    (m.pruneOnce policy changed).packs.map PackRef.checksum = m.packs.map PackRef.checksum := by
  simp only [pruneOnce, List.map_map]
  refine List.map_congr_left fun p _ => ?_
  simp only [Function.comp_apply]
  split_ifs <;> rfl

/-- Pruning leaves the changed packs alone, and the others with supported certificates only. -/
theorem pruneFor_spec {fuel : ℕ} {m : Manifest} (hfuel : m.certificates.length < fuel) :
    let r := pruneFor fuel m policy changed
    r.packs.map PackRef.checksum = m.packs.map PackRef.checksum ∧
      (∀ p ∈ r.packs, p.checksum ∈ changed → p ∈ m.packs) ∧
      ∀ p ∈ r.packs, p.checksum ∉ changed → ∀ c ∈ p.groupCoverages, r.supports policy c := by
  induction fuel generalizing m with
  | zero => omega
  | succ fuel ih =>
    have hchanged : ∀ p ∈ (m.pruneOnce policy changed).packs, p.checksum ∈ changed →
        p ∈ m.packs := by
      intro p hp hc
      obtain ⟨q, hq, hsame, hkept⟩ := pruneOnce_mem policy changed hp
      rw [hkept (hsame ▸ hc)]
      exact hq
    simp only [pruneFor]
    split_ifs with hfix
    · refine ⟨pruneOnce_checksums .., hchanged, fun p hp hc c hcert => ?_⟩
      obtain ⟨q, hq, rfl⟩ := List.mem_map.mp hp
      by_cases hq' : q.checksum ∈ changed
      · simp [hq'] at hc
      · simp only [hq', if_false] at hcert
        exact supports_packs hfix (List.mem_filter.mp hcert).2
    · have hlt := certificates_pruneOnce_lt policy changed hfix
      obtain ⟨hsums, hkept, hsupported⟩ := ih (m := m.pruneOnce policy changed) (by omega)
      refine ⟨hsums.trans (pruneOnce_checksums ..), fun p hp hc => ?_, hsupported⟩
      exact hchanged p (hkept p hp hc) hc

theorem pruneInvalidCoverages_spec (m : Manifest) :
    let r := m.pruneInvalidCoverages policy changed
    r.packs.map PackRef.checksum = m.packs.map PackRef.checksum ∧
      (∀ p ∈ r.packs, p.checksum ∈ changed → p ∈ m.packs) ∧
      ∀ p ∈ r.packs, p.checksum ∉ changed → ∀ c ∈ p.groupCoverages, r.supports policy c :=
  pruneFor_spec policy changed (Nat.lt_succ_self _)

end Manifest

/-- The inventory has at most one copy of a pack. -/
def Single (packs : List PackRef) (checksum : String) : Prop :=
  (packs.map PackRef.checksum).count checksum ≤ 1

instance (packs : List PackRef) (checksum : String) : Decidable (Single packs checksum) :=
  inferInstanceAs (Decidable (_ ≤ _))

theorem Single.eq {packs : List PackRef} {checksum : String} (h : Single packs checksum)
    {p q : PackRef} (hp : p ∈ packs) (hq : q ∈ packs) (hpc : p.checksum = checksum)
    (hqc : q.checksum = checksum) : p = q := by
  induction packs with
  | nil => cases hp
  | cons r packs ih =>
    rw [Single, List.map_cons, List.count_cons] at h
    have hnone : r.checksum = checksum → ∀ s ∈ packs, s.checksum ≠ checksum := by
      intro hr s hs hsc
      have hpos : 0 < (packs.map PackRef.checksum).count checksum :=
        List.count_pos_iff.mpr (hsc ▸ List.mem_map_of_mem hs)
      simp only [hr, beq_self_eq_true, if_true] at h
      omega
    rcases List.mem_cons.mp hp with rfl | hp' <;> rcases List.mem_cons.mp hq with rfl | hq'
    · rfl
    · exact absurd hqc (hnone hpc q hq')
    · exact absurd hpc (hnone hqc p hp')
    · exact ih (le_trans (Nat.le_add_right _ _) h) hp' hq'

theorem Manifest.live_of_single {m : Manifest} {checksum : String} (h : Single m.packs checksum)
    {p : PackRef} (hp : p ∈ m.packs) (hpc : p.checksum = checksum) :
    m.live checksum = some p := by
  cases hlive : m.live checksum with
  | none =>
    have hno := List.find?_eq_none.mp hlive p (List.mem_reverse.mpr hp)
    simp [hpc] at hno
  | some q =>
    obtain ⟨hq, hqc⟩ := Manifest.live_eq_some hlive
    rw [h.eq hq hp hqc hpc]

/-- How this repository's settings become a packing configuration, and what validation reads
from outside the manifest. The identity of a policy is a digest of its groups, so it
determines them. -/
structure Packing where
  config : Option RepoSettings → Except String PackConfig
  groups : String → SortedMap String (List String)
  identified : ∀ settings cfg, config settings = .ok cfg →
    groups cfg.policy.identity = cfg.policy.subtract
  repo : String
  objectFormat : String
  readSnapshot : String → ℕ → Except String SnapshotHead
  checkpointKey : CheckpointRef → String

namespace Packing

def input (E : Packing) (cfg : PackConfig) (candidates : List CoverageSnapshot) :
    CertificateInput where
  cfg := cfg
  repo := E.repo
  objectFormat := E.objectFormat
  candidates := candidates
  readSnapshot := E.readSnapshot
  checkpointKey := E.checkpointKey

/-- Every certificate has its members live in its group and its generation, and a certificate
of the same generation for each group its own one subtracts. -/
def Certified (E : Packing) (m : Manifest) : Prop :=
  ∀ c ∈ m.certificates, m.supports ⟨c.refPolicy, E.groups c.refPolicy⟩ c

variable {E : Packing} {m m' : Manifest}

theorem Certified.of_scopes (h : E.Certified m)
    (hkept : ∀ p ∈ m.packs, ∃ p' ∈ m'.packs, p'.scope = p.scope)
    (hnew : ∀ c ∈ m'.certificates, c ∈ m.certificates) : E.Certified m' :=
  fun c hc => Manifest.supports_mono hkept (h c (hnew c hc))

theorem Certified.of_map_scope (h : E.Certified m)
    (hscopes : m'.packs.map PackRef.scope = m.packs.map PackRef.scope) : E.Certified m' := by
  refine h.of_scopes (fun p hp => ?_) fun c hc => ?_
  · rw [← List.mem_map, hscopes]
    exact List.mem_map_of_mem hp
  · obtain ⟨p, hp, hcarried⟩ := Manifest.mem_certificates.mp hc
    have hmem : p.scope ∈ m.packs.map PackRef.scope := hscopes ▸ List.mem_map_of_mem hp
    obtain ⟨q, hq, hscope⟩ := List.mem_map.mp hmem
    simp only [PackRef.scope, Prod.mk.injEq] at hscope
    exact Manifest.mem_certificates.mpr ⟨q, hq, hscope.2.2.2.2.2 ▸ hcarried⟩

theorem Certified.of_packs (h : E.Certified m) (hpacks : m'.packs = m.packs) : E.Certified m' :=
  h.of_map_scope (congrArg (List.map PackRef.scope) hpacks)

/-- A pruned and validated inventory is certified if each changed pack has one copy and its
certificates name the policy in force. -/
theorem certified_of_validated {cfg : PackConfig} {settings : Option RepoSettings}
    (hcfg : E.config settings = .ok cfg) {before pruned : Manifest} {changed : List String}
    {candidates : List CoverageSnapshot}
    (hpacks : m'.packs = (pruned.pruneInvalidCoverages cfg.policy changed).packs)
    (hvalid : (E.input cfg candidates).validateCertificates before m' changed = .ok ())
    (hsingle : ∀ id ∈ changed, Single pruned.packs id)
    (hpolicy : ∀ p ∈ pruned.packs, p.checksum ∈ changed → ∀ c ∈ p.groupCoverages,
      c.refPolicy = cfg.policy.identity) : E.Certified m' := by
  obtain ⟨hsums, hkept, hsupported⟩ :=
    Manifest.pruneInvalidCoverages_spec cfg.policy changed pruned
  intro c hc
  obtain ⟨p, hp, hcarried⟩ := Manifest.mem_certificates.mp hc
  have hsupports : m'.supports cfg.policy c := by
    rw [hpacks] at hp
    by_cases hchanged : p.checksum ∈ changed
    · obtain ⟨q, hlive, hall⟩ := CertificateInput.validateCertificates_ok hvalid hchanged
      have hone : Single m'.packs p.checksum := by
        rw [Single, hpacks, hsums]
        exact hsingle _ hchanged
      rw [Manifest.live_of_single hone (hpacks ▸ hp) rfl] at hlive
      cases hlive
      exact hall c hcarried (hpolicy p (hkept p hp hchanged) hchanged c hcarried)
    · exact Manifest.supports_packs hpacks (hsupported p hp hchanged c hcarried)
  have hrefPolicy := (Manifest.supports_iff.mp hsupports).1
  rw [hrefPolicy, E.identified settings cfg hcfg]
  exact hsupports

end Packing

/-- One copy of each pack in a list of writes is rewritten in place, the certificates of the
write with it. -/
inductive Patched {ω : Type} (id : ω → String) (certs : ω → List PackGroupCoverage) :
    List ω → List PackRef → List PackRef → Prop
  | nil (packs : List PackRef) : Patched id certs [] packs packs
  | cons {w : ω} {ws : List ω} {packs packs' : List PackRef} {g : PackRef → PackRef}
      (kept : ∀ p, p.checksum = id w → (g p).checksum = id w ∧ (g p).groupCoverages = certs w)
      (rest : Patched id certs ws (modifyFirst (fun p => p.checksum == id w) g packs) packs') :
      Patched id certs (w :: ws) packs packs'

theorem modifyFirst_checksums {id : String} {g : PackRef → PackRef}
    (hg : ∀ p, p.checksum = id → (g p).checksum = id) (packs : List PackRef) :
    (modifyFirst (fun p => p.checksum == id) g packs).map PackRef.checksum =
      packs.map PackRef.checksum := by
  induction packs with
  | nil => rfl
  | cons p packs ih =>
    by_cases hp : p.checksum = id
    · simp [modifyFirst, hp, hg p hp]
    · simp [modifyFirst, hp, ih]

/-- The only copy is the one that is rewritten. -/
theorem mem_modifyFirst {id : String} {g : PackRef → PackRef} {packs : List PackRef}
    (hone : Single packs id) {p : PackRef}
    (hp : p ∈ modifyFirst (fun p => p.checksum == id) g packs) :
    (∃ q ∈ packs, q.checksum = id ∧ p = g q) ∨ (p ∈ packs ∧ p.checksum ≠ id) := by
  induction packs with
  | nil => cases hp
  | cons r packs ih =>
    rw [Single, List.map_cons, List.count_cons] at hone
    by_cases hr : r.checksum = id
    · simp only [modifyFirst, hr, beq_self_eq_true, if_true] at hp hone
      rcases List.mem_cons.mp hp with rfl | hp
      · exact Or.inl ⟨r, List.mem_cons_self, hr, rfl⟩
      · refine Or.inr ⟨List.mem_cons_of_mem r hp, fun hpc => ?_⟩
        have hpos : 0 < (packs.map PackRef.checksum).count id :=
          List.count_pos_iff.mpr (hpc ▸ List.mem_map_of_mem hp)
        omega
    · simp only [modifyFirst, beq_iff_eq, hr, if_false] at hp
      rcases List.mem_cons.mp hp with rfl | hp
      · exact Or.inr ⟨List.mem_cons_self, hr⟩
      · rcases ih (le_trans (Nat.le_add_right _ _) hone) hp with ⟨q, hq, hqc, rfl⟩ | ⟨hmem, hne⟩
        · exact Or.inl ⟨q, List.mem_cons_of_mem r hq, hqc, rfl⟩
        · exact Or.inr ⟨List.mem_cons_of_mem r hmem, hne⟩

theorem Patched.spec {ω : Type} {id : ω → String} {certs : ω → List PackGroupCoverage}
    {ws : List ω} {packs packs' : List PackRef} (h : Patched id certs ws packs packs')
    (hone : ∀ w ∈ ws, Single packs (id w)) :
    packs'.map PackRef.checksum = packs.map PackRef.checksum ∧
      ∀ p ∈ packs', (∃ w ∈ ws, p.groupCoverages = certs w) ∨
        (p ∈ packs ∧ p.checksum ∉ ws.map id) := by
  induction h with
  | nil packs => exact ⟨rfl, fun p hp => Or.inr ⟨hp, by simp⟩⟩
  | @cons w ws packs packs' g kept rest ih =>
    have hsums := modifyFirst_checksums (fun p hp => (kept p hp).1) packs
    obtain ⟨hsums', hpacks⟩ := ih fun v hv => by
      rw [Single, hsums]
      exact hone v (List.mem_cons_of_mem w hv)
    refine ⟨hsums'.trans hsums, fun p hp => ?_⟩
    rcases hpacks p hp with ⟨v, hv, hcerts⟩ | ⟨hmem, hne⟩
    · exact Or.inl ⟨v, List.mem_cons_of_mem w hv, hcerts⟩
    · rcases mem_modifyFirst (hone w List.mem_cons_self) hmem with ⟨q, -, hqc, rfl⟩ | ⟨hold, hne'⟩
      · exact Or.inl ⟨w, List.mem_cons_self, (kept q hqc).2⟩
      · refine Or.inr ⟨hold, ?_⟩
        simp only [List.map_cons, List.mem_cons, not_or]
        exact ⟨hne', hne⟩

/-- A reclassification patches the packs it names. -/
theorem reclassify_patched {changes : List PackClassification} {packs packs' : List PackRef}
    (h : changes.foldlM (fun packs change =>
      if packs.any (fun p => p.checksum == change.checksum) then
        some (modifyFirst (fun p => p.checksum == change.checksum) change.apply packs)
      else none) packs = some packs') :
    Patched PackClassification.checksum PackClassification.groupCoverages changes packs packs' := by
  induction changes generalizing packs with
  | nil =>
    cases h
    exact .nil _
  | cons change changes ih =>
    rw [List.foldlM_cons, Option.bind_eq_bind, Option.bind_eq_some_iff] at h
    obtain ⟨next, hnext, hrest⟩ := h
    split_ifs at hnext
    cases hnext
    refine .cons ?_ (ih hrest)
    exact fun p hp => ⟨hp, rfl⟩

/-- A seal patches its outputs. -/
theorem sealOutputs_patched {now : Timestamp} {outputs packs packs' : List PackRef}
    (h : outputs.foldlM (sealOutput now) packs = .ok packs') :
    Patched PackRef.checksum PackRef.groupCoverages outputs packs packs' := by
  induction outputs generalizing packs with
  | nil =>
    cases h
    exact .nil _
  | cons out outputs ih =>
    rw [List.foldlM_cons, Checks.bind_eq_ok] at h
    obtain ⟨next, hnext, hrest⟩ := h
    unfold sealOutput at hnext
    split at hnext
    · cases hnext
    · rename_i pack hfind
      have hchecksum : pack.checksum = out.checksum := by simpa using List.find?_some hfind
      split_ifs at hnext
      cases hnext
      refine .cons ?_ (ih hrest)
      exact fun p _ => ⟨hchecksum, rfl⟩

/-- A write of the manifest, with the snapshots its producer supplies. -/
inductive Edit where
  | append (job : Job) (a : Attempt) (now : Timestamp) (seg : LogSegmentRef)
      (candidates : List CoverageSnapshot)
  | rewrite (job : MetaJob) (policy : PackPolicy) (writer : String) (now : Timestamp)
      (candidates : List CoverageSnapshot)

namespace Edit

/-- The policy the write was made with. -/
def policy : Edit → PackPolicy
  | append _ a _ _ _ => a.policy
  | rewrite _ policy _ _ _ => policy

def candidates : Edit → List CoverageSnapshot
  | append _ _ _ _ candidates => candidates
  | rewrite _ _ _ _ candidates => candidates

/-- The packs whose classification a write sets; other writes do not validate. -/
def changed : Edit → Option (List String)
  | append (.compact info _ _ _) _ _ _ _ => some [info.checksum]
  | append (.sealPacks _ _ outputs) _ _ _ _ => some (outputs.map PackRef.checksum)
  | rewrite (.reclassify changes) _ _ _ _ => some (changes.map PackClassification.checksum)
  | _ => none

/-- The packs a write reclassifies where they stand. -/
def patched : Edit → List String
  | append (.sealPacks _ _ outputs) _ _ _ _ => outputs.map PackRef.checksum
  | rewrite (.reclassify changes) _ _ _ _ => changes.map PackClassification.checksum
  | _ => []

/-- The bounds of a reclassification; a seal checks its own. -/
def bounded : Edit → Bool
  | rewrite (.reclassify changes) _ _ _ candidates =>
    !changes.isEmpty && changes.length ≤ 128 && candidates.length ≤ 128 &&
      decide (changes.map PackClassification.checksum).Nodup
  | _ => true

section Writes

variable [Text.CharTables]

/-- The manifest a write makes of its basis. -/
def manifest (m : Manifest) : Edit → Option Manifest
  | append job a now seg _ =>
    if a.basis.manifest = m then (job.manifest a now seg).toOption else none
  | rewrite job policy writer now _ => job.manifest m policy writer now

end Writes

/-- The certificates a write gives to the packs it classifies. -/
def certificates (m : Manifest) : Edit → List PackGroupCoverage
  | append (.compact info _ tier classification) a _ _ _ =>
    match compactPack m info tier classification a.startedAt with
    | .ok pack => pack.groupCoverages
    | .error _ => []
  | append (.sealPacks _ _ outputs) _ _ _ _ => outputs.flatMap PackRef.groupCoverages
  | rewrite (.reclassify changes) _ _ _ _ => changes.flatMap PackClassification.groupCoverages
  | _ => []

end Edit

/-- Every step of a repository's history is such a write. -/
theorem Chain.edit [Text.CharTables] {cfg : Config} {g g' : Generation} {gens : List Generation}
    (h : Chain cfg (g' :: g :: gens)) : ∃ e : Edit, e.manifest g.manifest = some g'.manifest := by
  cases h with
  | append older o now m version basis wrote burned edit newer =>
    refine ⟨.append o.job o.attempt now (o.slot.ref cfg) [], ?_⟩
    simp [Edit.manifest, basis, edit, Except.toOption]
  | rewrite older job policy writer now m version edit folded newer =>
    exact ⟨.rewrite job policy writer now [], edit⟩

namespace Packing

variable (E : Packing)

/-- A write that classifies packs is validated against the configuration of its basis. -/
def admits (m m' : Manifest) (e : Edit) : Bool :=
  match e.changed with
  | none => true
  | some changed =>
    match E.config m.settings with
    | .error _ => false
    | .ok cfg =>
      e.policy == cfg.policy && e.bounded &&
        ((E.input cfg e.candidates).validateCertificates m m' changed).isOk

def commit [Text.CharTables] (m : Manifest) (e : Edit) : Option Manifest :=
  (e.manifest m).filter (E.admits m · e)

/-- Each pack the write reclassifies in place is in the inventory once, and the certificates it
sets name the policy in force. -/
def Sound (m : Manifest) (e : Edit) : Prop :=
  (∀ id ∈ e.patched, Single m.packs id) ∧
    ∀ cfg ∈ (E.config m.settings).toOption, ∀ c ∈ e.certificates m,
      c.refPolicy = cfg.policy.identity

instance (m : Manifest) (e : Edit) : Decidable (E.Sound m e) :=
  inferInstanceAs (Decidable (_ ∧ _))

theorem Sound.certificates {E : Packing} {m : Manifest} {e : Edit} (h : E.Sound m e)
    {cfg : PackConfig} (hcfg : E.config m.settings = .ok cfg) :
    ∀ c ∈ e.certificates m, c.refPolicy = cfg.policy.identity :=
  h.2 cfg (by rw [hcfg]; rfl)

section Steps

variable {E} {m m' : Manifest}

/-- Pushed packs carry no certificate. -/
theorem Certified.batch [Text.CharTables] {reqs : List PublishRequest} {a : Attempt}
    {now : Timestamp} {seg : LogSegmentRef} (h : E.Certified a.basis.manifest)
    (hm : (Job.batch reqs).manifest a now seg = .ok m') : E.Certified m' := by
  cases hm
  refine h.of_scopes (fun p hp => ?_) fun c hc => ?_
  · exact ⟨p, mem_sortByKey.mpr (List.mem_append_left _ hp), rfl⟩
  · obtain ⟨p, hp, hcarried⟩ := Manifest.mem_certificates.mp hc
    rcases List.mem_append.mp (mem_sortByKey.mp hp) with hold | hnew
    · exact Manifest.mem_certificates.mpr ⟨p, hold, hcarried⟩
    · obtain ⟨e, he, hpack⟩ := List.mem_filterMap.mp hnew
      obtain ⟨member, -, seq, rfl⟩ := mem_buildEntries he
      obtain ⟨ingested, -, rfl⟩ := Option.map_eq_some_iff.mp hpack
      cases hcarried

theorem Certified.control [Text.CharTables] {c : Control} {a : Attempt} {now : Timestamp}
    {seg : LogSegmentRef} (h : E.Certified a.basis.manifest)
    (hm : (Job.control c).manifest a now seg = .ok m') : E.Certified m' := by
  simp only [Job.manifest, Checks.bind_eq_ok] at hm
  obtain ⟨⟨template, next⟩, hprepare, hm⟩ := hm
  cases hm
  have hnext := Control.prepare_eq hprepare
  have hpacks : next.packs = a.basis.manifest.packs := by rw [hnext]
  exact h.of_packs hpacks

/-- A checkpoint does not touch the inventory. -/
theorem Certified.checkpoint {view : Manifest} {cp : CheckpointRef} {policy : PackPolicy}
    {writer : String} {now : Timestamp} (h : E.Certified m)
    (hm : (MetaJob.checkpoint view cp).manifest m policy writer now = some m') :
    E.Certified m' := by
  simp only [MetaJob.manifest] at hm
  split_ifs at hm
  cases hm
  exact h.of_packs rfl

theorem modifyFirst_scopes {id : String} {g : PackRef → PackRef}
    (hg : ∀ p, (g p).scope = p.scope) (packs : List PackRef) :
    (modifyFirst (fun p => p.checksum == id) g packs).map PackRef.scope =
      packs.map PackRef.scope := by
  induction packs with
  | nil => rfl
  | cons p packs ih =>
    by_cases hp : p.checksum = id
    · simp [modifyFirst, hp, hg p]
    · simp [modifyFirst, hp, ih]

/-- An annotation sets flags that certificates do not rest on. -/
theorem Certified.annotate {checksum : String} {rev bitmap commitGraph : Bool}
    {policy : PackPolicy} {writer : String} {now : Timestamp} (h : E.Certified m)
    (hm : (MetaJob.annotate checksum rev bitmap commitGraph).manifest m policy writer now =
      some m') : E.Certified m' := by
  simp only [MetaJob.manifest] at hm
  split_ifs at hm
  cases hm
  refine h.of_map_scope (modifyFirst_scopes ?_ m.packs)
  exact fun _ => rfl

theorem compactPack_checksum {info : PackInfo} {tier : ℕ}
    {classification : Option PackClassification} {now : Timestamp} {pack : PackRef}
    (h : compactPack m info tier classification now = .ok pack) :
    pack.checksum = info.checksum := by
  unfold compactPack at h
  simp only at h
  split at h
  · split_ifs at h
    cases h
    rfl
  · split at h
    · cases h
      rfl
    · cases h
      rfl

/-- What an admitted write that classifies packs was checked against. -/
theorem admits_ok {e : Edit} {changed : List String} (h : E.admits m m' e = true)
    (hchanged : e.changed = some changed) :
    ∃ cfg, E.config m.settings = .ok cfg ∧ e.policy = cfg.policy ∧
      (E.input cfg e.candidates).validateCertificates m m' changed = .ok () := by
  simp only [admits, hchanged] at h
  split at h
  · cases h
  · rename_i cfg hcfg
    simp only [Bool.and_eq_true, beq_iff_eq] at h
    obtain ⟨⟨hpolicy, -⟩, hvalid⟩ := h
    refine ⟨cfg, hcfg, hpolicy, ?_⟩
    cases hresult : (E.input cfg e.candidates).validateCertificates m m' changed with
    | ok => rfl
    | error err => simp [hresult, Except.isOk, Except.toBool] at hvalid

/-- A compaction leaves one copy of the pack it writes. -/
theorem compacted_copies (packs : List PackRef) (pack : PackRef) {kept : PackRef → Bool}
    (hkept : ∀ p, kept p = true → p.checksum ≠ pack.checksum) :
    Single (sortByKey PackRef.seq (packs.filter kept ++ [pack])) pack.checksum ∧
      ∀ p ∈ sortByKey PackRef.seq (packs.filter kept ++ [pack]), p.checksum = pack.checksum →
        p = pack := by
  have hnone : ∀ p ∈ packs.filter kept, p.checksum ≠ pack.checksum := fun p hp =>
    hkept p (List.mem_filter.mp hp).2
  constructor
  · have hperm := (List.perm_insertionSort (fun p q : PackRef => p.seq ≤ q.seq)
      (packs.filter kept ++ [pack])).map PackRef.checksum
    rw [Single, sortByKey, hperm.count_eq, List.map_append, List.count_append]
    have hzero : ((packs.filter kept).map PackRef.checksum).count pack.checksum = 0 := by
      rw [List.count_eq_zero, List.mem_map]
      rintro ⟨p, hp, hpc⟩
      exact hnone p hp hpc
    simp [hzero]
  · intro p hp hpc
    rcases List.mem_append.mp (mem_sortByKey.mp hp) with hold | hnew
    · exact absurd hpc (hnone p hold)
    · exact List.mem_singleton.mp hnew

theorem certified_compact [Text.CharTables] {info : PackInfo} {supersedes : List String} {tier : ℕ}
    {classification : Option PackClassification} {a : Attempt} {now : Timestamp}
    {seg : LogSegmentRef} {candidates : List CoverageSnapshot}
    (hm : (Job.compact info supersedes tier classification).manifest a now seg = .ok m')
    (hadmits : E.admits a.basis.manifest m'
      (.append (.compact info supersedes tier classification) a now seg candidates) = true)
    (hsound : E.Sound a.basis.manifest
      (.append (.compact info supersedes tier classification) a now seg candidates)) :
    E.Certified m' := by
  obtain ⟨cfg, hcfg, hpolicy, hvalid⟩ := admits_ok hadmits rfl
  simp only [Job.manifest, Checks.bind_eq_ok] at hm
  obtain ⟨pack, hpack, hm⟩ := hm
  cases hm
  have hchecksum : pack.checksum = info.checksum := compactPack_checksum hpack
  obtain ⟨hone, honly⟩ := compacted_copies a.basis.manifest.packs
    { pack with seq := seg.firstSeq } fun p
      (hp : (p.checksum ∉ supersedes && p.checksum ≠ pack.checksum) = true) => by
        simpa using (Bool.and_eq_true_iff.mp hp).2
  change a.policy = cfg.policy at hpolicy
  rw [hpolicy, ← hchecksum] at hvalid
  rw [hpolicy]
  refine certified_of_validated hcfg rfl hvalid ?_ ?_
  · intro id hid
    rw [List.mem_singleton.mp hid]
    exact hone
  · intro p hp hpc c hc
    rw [honly p hp (List.mem_singleton.mp hpc)] at hc
    refine hsound.certificates hcfg c ?_
    simp only [Edit.certificates, hpack]
    exact hc

/-- A write that patches its packs in place, each of them once in the inventory. -/
theorem certified_of_patched {ω : Type} {id : ω → String} {certs : ω → List PackGroupCoverage}
    {ws : List ω} {packs : List PackRef} (hpatched : Patched id certs ws m.packs packs)
    (hsingle : ∀ c ∈ ws.map id, Single m.packs c) {cfg : PackConfig}
    (hcfg : E.config m.settings = .ok cfg)
    (hpolicy : ∀ c ∈ ws.flatMap certs, c.refPolicy = cfg.policy.identity)
    {pruned : Manifest} (hpruned : pruned.packs.Sublist packs)
    (hpacks : m'.packs = (pruned.pruneInvalidCoverages cfg.policy (ws.map id)).packs)
    {candidates : List CoverageSnapshot}
    (hvalid : (E.input cfg candidates).validateCertificates m m' (ws.map id) = .ok ()) :
    E.Certified m' := by
  obtain ⟨hsums, hwritten⟩ := hpatched.spec fun w hw => hsingle _ (List.mem_map_of_mem hw)
  refine certified_of_validated hcfg hpacks hvalid (fun c hc => ?_) fun p hp hpc c hc => ?_
  · have hle := (hpruned.map PackRef.checksum).count_le c
    rw [hsums] at hle
    exact hle.trans (hsingle c hc)
  · rcases hwritten p (hpruned.subset hp) with ⟨w, hw, hcerts⟩ | ⟨-, hnot⟩
    · exact hpolicy c (List.mem_flatMap.mpr ⟨w, hw, hcerts ▸ hc⟩)
    · exact absurd hpc hnot

theorem certified_reclassify {changes : List PackClassification} {policy : PackPolicy}
    {writer : String} {now : Timestamp} {candidates : List CoverageSnapshot}
    (hm : (MetaJob.reclassify changes).manifest m policy writer now = some m')
    (hadmits : E.admits m m' (.rewrite (.reclassify changes) policy writer now candidates) = true)
    (hsound : E.Sound m (.rewrite (.reclassify changes) policy writer now candidates)) :
    E.Certified m' := by
  obtain ⟨cfg, hcfg, hpolicy, hvalid⟩ := admits_ok hadmits rfl
  simp only [MetaJob.manifest, Option.bind_eq_bind, Option.bind_eq_some_iff] at hm
  obtain ⟨packs, hpacks, hm⟩ := hm
  cases hm
  change policy = cfg.policy at hpolicy
  subst hpolicy
  exact certified_of_patched (reclassify_patched hpacks) hsound.1 hcfg (hsound.certificates hcfg)
    (List.Sublist.refl _) rfl hvalid

theorem certified_seal [Text.CharTables] {captured : Manifest} {inputs : List String}
    {outputs : List PackRef} {a : Attempt} {now : Timestamp} {seg : LogSegmentRef}
    {candidates : List CoverageSnapshot}
    (hm : (Job.sealPacks captured inputs outputs).manifest a now seg = .ok m')
    (hadmits : E.admits a.basis.manifest m'
      (.append (.sealPacks captured inputs outputs) a now seg candidates) = true)
    (hsound : E.Sound a.basis.manifest
      (.append (.sealPacks captured inputs outputs) a now seg candidates)) : E.Certified m' := by
  obtain ⟨cfg, hcfg, hpolicy, hvalid⟩ := admits_ok hadmits rfl
  simp only [Job.manifest, sealManifest, Checks.guard_ok, Checks.bind_eq_ok] at hm
  obtain ⟨sealed, ⟨-, -, -, -, packs, hpacks, hsealed⟩, hm⟩ := hm
  cases hsealed
  cases hm
  change a.policy = cfg.policy at hpolicy
  rw [hpolicy] at hvalid
  rw [hpolicy]
  exact certified_of_patched (sealOutputs_patched hpacks) hsound.1 hcfg (hsound.certificates hcfg)
    List.filter_sublist rfl hvalid

/-- One write keeps every certificate supported. -/
theorem Certified.step [Text.CharTables] {e : Edit} (h : E.Certified m) (hsound : E.Sound m e)
    (hcommit : E.commit m e = some m') : E.Certified m' := by
  obtain ⟨hm, hadmits⟩ := Option.filter_eq_some_iff.mp hcommit
  cases e with
  | append job a now seg candidates =>
    simp only [Edit.manifest] at hm
    split_ifs at hm with hbasis
    subst hbasis
    have hok : job.manifest a now seg = .ok m' := by
      cases hresult : job.manifest a now seg with
      | error err => simp [hresult, Except.toOption] at hm
      | ok n => simpa [hresult, Except.toOption] using hm
    cases job with
    | batch reqs => exact h.batch hok
    | compact info supersedes tier classification => exact certified_compact hok hadmits hsound
    | control c => exact h.control hok
    | sealPacks captured inputs outputs => exact certified_seal hok hadmits hsound
  | rewrite job policy writer now candidates =>
    simp only [Edit.manifest] at hm
    cases job with
    | checkpoint view cp => exact h.checkpoint hm
    | annotate checksum rev bitmap commitGraph => exact h.annotate hm
    | reclassify changes => exact certified_reclassify hm hadmits hsound

end Steps

end Packing

/-- If every write reclassifies packs the inventory has once and sets certificates of the policy
in force, each certificate a run leaves behind is supported. -/
theorem Packing.certificates_supported [Text.CharTables] (E : Packing) (access : Option RepoAccess)
    (now : Timestamp) (writer : String) {edits : List Edit} {m : Manifest}
    (hrun : Runs.run E.commit (createdManifest access now writer) edits = some m)
    (hsound : Runs.AllSteps E.commit E.Sound (createdManifest access now writer) edits) :
    E.Certified m := by
  refine Runs.invariant (fun m e m' h hs hm => h.step hs hm) hrun hsound ?_
  intro c hc
  cases hc

section Copies

attribute [local instance] Text.asciiTables

/-- One group of code packs that subtracts nothing. -/
def codePacking : Packing where
  config _ := .ok ⟨⟨"p1", .ofList [("code", [])]⟩, fun _ => .code⟩
  groups _ := .ofList [("code", [])]
  identified := by
    rintro settings cfg ⟨⟩
    rfl
  repo := "r"
  objectFormat := "sha1"
  readSnapshot _ _ := .error "no such object"
  checkpointKey _ := ""

/-- A branch is pushed with pack `a`. -/
def pushPack (m : Manifest) (branch : String) : Edit :=
  .append (.batch [{ pack := some ⟨"a", 100, 10, 3⟩
                     txn := ⟨[⟨branch, "", "aaaaaaaaaaaaaaaaaaaaaaaaaaaaaaaaaaaaaaaa", ""⟩], [],
                       true⟩ }])
    ⟨⟨m, some 0, .new .fresh, .empty, none⟩, ⟨"", .empty⟩, "w", ⟨2, 0⟩⟩ ⟨3, 0⟩
    (segmentRef (m.headSeq + 1) (m.headSeq + 1) 1) []

/-- Pack `a` becomes a code pack with a certificate for these members. -/
def certify (members : List String) : Edit :=
  .rewrite (.reclassify [⟨"a", .objects, .code, "p1", ["code"], 1, "k",
      [⟨"code", "p1", 1, members, "k"⟩]⟩])
    ⟨"p1", .ofList [("code", [])]⟩ "w" ⟨4, 0⟩ [⟨"k", "r", ⟨1, "sha1"⟩⟩]

/-- One push, then a certificate for the pushed pack. -/
def certifyOnce : List Edit :=
  [pushPack (createdManifest none ⟨1, 0⟩ "w") "refs/heads/main", certify ["a"]]

/-- The same pack is pushed to two branches, then certified together with a missing pack. -/
def certifyCopies : List Edit :=
  let first := createdManifest none ⟨1, 0⟩ "w"
  let main := pushPack first "refs/heads/main"
  [main, pushPack ((main.manifest first).getD first) "refs/heads/dev", certify ["a", "gone"]]

theorem certificates_supported_once :
    ∃ m : Manifest, m.certificates = [⟨"code", "p1", 1, ["a"], "k"⟩] ∧
      codePacking.Certified m := by
  have hsome : (Runs.run codePacking.commit (createdManifest none ⟨1, 0⟩ "w") certifyOnce).map
      Manifest.certificates = some [⟨"code", "p1", 1, ["a"], "k"⟩] := by decide
  obtain ⟨m, hrun, hcerts⟩ := Option.map_eq_some_iff.mp hsome
  exact ⟨m, hcerts, Packing.certificates_supported codePacking none ⟨1, 0⟩ "w" hrun
    (by decide)⟩

/-- The certificate lands on the first copy and validation looks at the last. -/
theorem certificates_unsupported_copies :
    ∃ m : Manifest, Runs.run codePacking.commit (createdManifest none ⟨1, 0⟩ "w") certifyCopies =
      some m ∧ ¬codePacking.Certified m := by
  have hsome : (Runs.run codePacking.commit (createdManifest none ⟨1, 0⟩ "w") certifyCopies).map
      (fun m => m.certificates.all fun c =>
        m.supports ⟨c.refPolicy, codePacking.groups c.refPolicy⟩ c) = some false := by
    decide
  obtain ⟨m, hrun, hfalse⟩ := Option.map_eq_some_iff.mp hsome
  refine ⟨m, hrun, fun hcertified => ?_⟩
  have htrue := List.all_eq_true.mpr hcertified
  rw [hfalse] at htrue
  cases htrue

end Copies

end Walgit
