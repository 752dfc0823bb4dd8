import Walgit.Coverage
import Walgit.Descent

/-!
# The greatest supported set

What pruning leaves does not depend on how it gets there: it is the greatest choice of
certificates that supports itself, apart from the packs a write changed, whose certificates
are validated instead.
-/
namespace Walgit

/-- The same pack with some of its certificates. -/
def PackRef.Selects (p q : PackRef) : Prop :=
  p = { q with groupCoverages := p.groupCoverages } ∧ List.Sublist p.groupCoverages q.groupCoverages

theorem PackRef.Selects.refl (p : PackRef) : p.Selects p := ⟨rfl, .refl _⟩

namespace Manifest

variable (policy : PackPolicy) (changed : List String)

/-- A certificate's members are live and as it says, and every group it subtracts is certified
at its generation. -/
structure Supported (m : Manifest) (c : PackGroupCoverage) : Prop where
  current : c.refPolicy = policy.identity
  some_member : c.packs ≠ []
  members : ∀ id ∈ c.packs, ∃ p ∈ m.packs, p.checksum = id ∧ c.group ∈ p.packGroups ∧
    p.refPolicy = policy.identity ∧ p.coversSeq = c.coversSeq ∧ p.coverageRefsKey = c.refsKey
  dependencies : ∃ subtract, policy.subtract.find? c.group = some subtract ∧
    ∀ dependency ∈ subtract, ∃ d ∈ m.certificates, d.group = dependency ∧
      d.refPolicy = policy.identity ∧ d.coversSeq = c.coversSeq ∧ d.refsKey = c.refsKey

/-- Every certificate that a write left alone is supported by the inventory. -/
def SelfSupporting (m : Manifest) : Prop :=
  ∀ p ∈ m.packs, p.checksum ∉ changed → ∀ c ∈ p.groupCoverages, m.Supported policy c

/-- An inventory with some of the certificates of another, and all those of changed packs. -/
def Selects (r m : Manifest) : Prop :=
  r = { m with packs := r.packs } ∧
    List.Forall₂ (fun p q => p.Selects q ∧ (q.checksum ∈ changed → p = q)) r.packs m.packs

variable {policy changed} {r m m' : Manifest}

theorem forall₂_left {P : PackRef → PackRef → Prop} {ps qs : List PackRef}
    (h : List.Forall₂ P ps qs) {p : PackRef} (hp : p ∈ ps) : ∃ q ∈ qs, P p q := by
  induction h with
  | nil => cases hp
  | cons hpq _ ih =>
    rcases List.mem_cons.mp hp with rfl | hp
    · exact ⟨_, List.mem_cons_self, hpq⟩
    · obtain ⟨q, hq, h⟩ := ih hp
      exact ⟨q, List.mem_cons_of_mem _ hq, h⟩

theorem supported_iff {c : PackGroupCoverage} : m.Supported policy c ↔ m.supports policy c := by
  rw [supports_iff]
  constructor
  · rintro ⟨hcurrent, hne, hmembers, subtract, hsubtract, hdeps⟩
    exact ⟨hcurrent, subtract, hsubtract, hne, hmembers, hdeps⟩
  · rintro ⟨hcurrent, subtract, hsubtract, hne, hmembers, hdeps⟩
    exact ⟨hcurrent, hne, hmembers, subtract, hsubtract, hdeps⟩

/-- A greater choice supports whatever a smaller one does. -/
theorem Selects.supported (h : Selects changed r m) {c : PackGroupCoverage}
    (hc : r.Supported policy c) : m.Supported policy c where
  current := hc.current
  some_member := hc.some_member
  members := by
    intro id hid
    obtain ⟨p, hp, hfields⟩ := hc.members id hid
    obtain ⟨q, hq, hsel, -⟩ := forall₂_left h.2 hp
    rw [hsel.1] at hfields
    exact ⟨q, hq, hfields⟩
  dependencies := by
    obtain ⟨subtract, hsubtract, hdeps⟩ := hc.dependencies
    refine ⟨subtract, hsubtract, fun d hd => ?_⟩
    obtain ⟨d', hd', hfields⟩ := hdeps d hd
    obtain ⟨p, hp, hcarried⟩ := mem_certificates.mp hd'
    obtain ⟨q, hq, hsel, -⟩ := forall₂_left h.2 hp
    exact ⟨d', mem_certificates.mpr ⟨q, hq, hsel.2.subset hcarried⟩, hfields⟩

theorem Selects.supports (h : Selects changed r m) {c : PackGroupCoverage}
    (hc : r.supports policy c) : m.supports policy c :=
  supported_iff.mp (h.supported (supported_iff.mpr hc))

/-- What one pass leaves of a pack. -/
def prunePack (policy : PackPolicy) (changed : List String) (m : Manifest) (p : PackRef) :
    PackRef :=
  if p.checksum ∈ changed then p
  else { p with groupCoverages := p.groupCoverages.filter (m.supports policy) }

theorem pruneOnce_packs (m : Manifest) :
    (m.pruneOnce policy changed).packs = m.packs.map (m.prunePack policy changed) := rfl

theorem prunePack_selects (m : Manifest) (p : PackRef) :
    (m.prunePack policy changed p).Selects p ∧
      (p.checksum ∈ changed → m.prunePack policy changed p = p) := by
  unfold prunePack
  split_ifs with hc
  · exact ⟨.refl p, fun _ => rfl⟩
  · exact ⟨⟨rfl, List.filter_sublist⟩, fun h => absurd h hc⟩

theorem pruneOnce_selects (m : Manifest) : Selects changed (m.pruneOnce policy changed) m := by
  refine ⟨rfl, ?_⟩
  rw [pruneOnce_packs, List.forall₂_map_left_iff]
  exact List.forall₂_same.mpr fun p _ => prunePack_selects m p

theorem Selects.refl (m : Manifest) : Selects changed m m :=
  ⟨rfl, List.forall₂_same.mpr fun p _ => ⟨.refl p, fun _ => rfl⟩⟩

theorem forall₂_trans {P : PackRef → PackRef → Prop} (htrans : ∀ p q s, P p q → P q s → P p s)
    {ps qs ss : List PackRef} (h : List.Forall₂ P ps qs) (h' : List.Forall₂ P qs ss) :
    List.Forall₂ P ps ss := by
  induction h generalizing ss with
  | nil => exact h'
  | cons hpq _ ih =>
    cases h' with
    | cons hqs hrest => exact .cons (htrans _ _ _ hpq hqs) (ih hrest)

theorem Selects.trans (h : Selects changed r m) (h' : Selects changed m m') :
    Selects changed r m' := by
  refine ⟨by rw [h.1, h'.1], forall₂_trans (fun p q s hpq hqs => ?_) h.2 h'.2⟩
  refine ⟨⟨by rw [hpq.1.1, hqs.1.1], hpq.1.2.trans hqs.1.2⟩, fun hc => ?_⟩
  have hsame := hqs.2 hc
  exact (hpq.2 (hsame ▸ hc)).trans hsame

theorem prunePack_mono (h : Selects changed r m) {p q : PackRef} (hpq : p.Selects q) :
    (r.prunePack policy changed p).Selects (m.prunePack policy changed q) := by
  have hsame : p.checksum = q.checksum := by rw [hpq.1]
  unfold prunePack
  rw [hsame]
  split_ifs with hc
  · exact hpq
  · refine ⟨by rw [hpq.1], ?_⟩
    refine (hpq.2.filter _).trans ?_
    exact List.monotone_filter_right _ fun c hsupports => h.supports hsupports

/-- A smaller choice is pruned to a smaller one. -/
theorem pruneOnce_mono (h : Selects changed r m) :
    Selects changed (r.pruneOnce policy changed) (m.pruneOnce policy changed) := by
  refine ⟨by rw [pruneOnce, h.1]; rfl, ?_⟩
  rw [pruneOnce_packs, pruneOnce_packs, List.forall₂_map_left_iff, List.forall₂_map_right_iff]
  refine h.2.imp fun p q hpq => ⟨prunePack_mono h hpq.1, fun hc => ?_⟩
  have hc' : q.checksum ∈ changed := by
    rw [(prunePack_selects m q).1.1] at hc
    exact hc
  rw [(prunePack_selects m q).2 hc', hpq.2 hc', (prunePack_selects r q).2 hc']

theorem pruneOnce_eq_iff : m.pruneOnce policy changed = m ↔
    (m.pruneOnce policy changed).packs = m.packs := by
  refine ⟨congrArg Manifest.packs, fun h => ?_⟩
  have heq : m.pruneOnce policy changed =
    { m with packs := (m.pruneOnce policy changed).packs } := rfl
  rw [heq, h]

theorem pruneOnce_eq_iff_forall : m.pruneOnce policy changed = m ↔
    ∀ p ∈ m.packs, m.prunePack policy changed p = p := by
  rw [pruneOnce_eq_iff, pruneOnce_packs]
  conv_lhs => rhs; rw [← List.map_id m.packs]
  exact List.map_inj_left

/-- A choice supports itself if a pass takes nothing from it. -/
theorem selfSupporting_iff :
    SelfSupporting policy changed m ↔ m.pruneOnce policy changed = m := by
  rw [pruneOnce_eq_iff_forall]
  refine forall₂_congr fun p _ => ?_
  unfold prunePack
  split_ifs with hc
  · exact iff_of_true (fun h => absurd hc h) rfl
  · simp only [supported_iff]
    constructor
    · intro h
      rw [List.filter_eq_self.mpr (h hc)]
    · intro h _
      exact List.filter_eq_self.mp (congrArg PackRef.groupCoverages h)

theorem certificates_length_lt (h : m.pruneOnce policy changed ≠ m) :
    (m.pruneOnce policy changed).certificates.length < m.certificates.length := by
  exact certificates_pruneOnce_lt policy changed fun hpacks => h (pruneOnce_eq_iff.mpr hpacks)

/-- The loop is the descent of one pass. -/
theorem pruneFor_eq (fuel : ℕ) (m : Manifest) :
    pruneFor fuel m policy changed =
      Descent.settle (fun m => m.pruneOnce policy changed) fuel m := by
  induction fuel generalizing m with
  | zero => rfl
  | succ fuel ih =>
    simp only [pruneFor, Descent.settle, ← pruneOnce_eq_iff]
    split_ifs with hfix
    · exact hfix
    · exact ih _

theorem pruneInvalidCoverages_eq (m : Manifest) :
    m.pruneInvalidCoverages policy changed = Descent.settle
      (fun m => m.pruneOnce policy changed) (m.certificates.length + 1) m :=
  pruneFor_eq _ m

/-- The packs in another order lose the same certificates. -/
theorem supports_perm (h : m'.packs.Perm m.packs) {c : PackGroupCoverage} :
    m'.supports policy c = m.supports policy c := by
  have himp : ∀ {a b : Manifest}, a.packs.Perm b.packs → a.supports policy c →
      b.supports policy c := fun hperm =>
    supports_mono fun p hp => ⟨p, hperm.mem_iff.mp hp, rfl⟩
  exact Bool.eq_iff_iff.mpr ⟨himp h, himp h.symm⟩

theorem prunePack_perm (h : m'.packs.Perm m.packs) :
    m'.prunePack policy changed = m.prunePack policy changed := by
  have hsupports : m'.supports policy = m.supports policy := funext fun _ => supports_perm h
  funext p
  rw [prunePack, prunePack, hsupports]

/-- What becomes of a pack does not depend on the order of the packs. -/
theorem pruneInvalidCoverages_perm (h : m'.packs.Perm m.packs) :
    ∃ f, (m.pruneInvalidCoverages policy changed).packs = m.packs.map f ∧
      (m'.pruneInvalidCoverages policy changed).packs = m'.packs.map f := by
  have hlength : m'.certificates.length = m.certificates.length := (h.flatMap_right _).length_eq
  rw [pruneInvalidCoverages_eq, pruneInvalidCoverages_eq, hlength]
  have hperm : ∀ {a b : Manifest} {f : PackRef → PackRef}, a.packs = m.packs.map f →
      b.packs = m'.packs.map f → b.packs.Perm a.packs := by
    intro a b f ha hb
    rw [ha, hb]
    exact h.map f
  refine Descent.settle_rel (R := fun (a b : Manifest) =>
    ∃ f, a.packs = m.packs.map f ∧ b.packs = m'.packs.map f) ?_ ?_ ⟨id, by simp, by simp⟩ _
  · rintro a b ⟨f, ha, hb⟩
    refine ⟨a.prunePack policy changed ∘ f, ?_, ?_⟩
    · rw [pruneOnce_packs, ha, List.map_map]
    · rw [pruneOnce_packs, hb, List.map_map, prunePack_perm (hperm ha hb)]
  · rintro a b ⟨f, ha, hb⟩
    rw [pruneOnce_eq_iff_forall, pruneOnce_eq_iff_forall, prunePack_perm (hperm ha hb)]
    exact forall_congr' fun p => by rw [(hperm ha hb).mem_iff]

/-- Pruning ends with the greatest self-supporting choice, in whatever order the packs are, and
has nothing left to do. -/
theorem pruneInvalidCoverages_greatest (policy : PackPolicy) (changed : List String)
    (m : Manifest) :
    (∀ fuel, m.certificates.length < fuel →
      pruneFor fuel m policy changed = m.pruneInvalidCoverages policy changed) ∧
    Selects changed (m.pruneInvalidCoverages policy changed) m ∧
    SelfSupporting policy changed (m.pruneInvalidCoverages policy changed) ∧
    (∀ r, Selects changed r m → SelfSupporting policy changed r →
      Selects changed r (m.pruneInvalidCoverages policy changed)) ∧
    (∀ m' : Manifest, m'.packs.Perm m.packs → ∃ f,
      (m.pruneInvalidCoverages policy changed).packs = m.packs.map f ∧
        (m'.pruneInvalidCoverages policy changed).packs = m'.packs.map f) ∧
    (m.pruneInvalidCoverages policy changed).pruneInvalidCoverages policy changed =
      m.pruneInvalidCoverages policy changed := by
  have hfixed : (m.pruneInvalidCoverages policy changed).pruneOnce policy changed =
      m.pruneInvalidCoverages policy changed := by
    rw [pruneInvalidCoverages_eq]
    exact Descent.settle_fixed (f := fun x : Manifest => x.pruneOnce policy changed)
      (μ := fun x => x.certificates.length) (fun _ => certificates_length_lt) (Nat.lt_succ_self _)
  refine ⟨fun fuel hfuel => ?_, ?_, selfSupporting_iff.mpr hfixed, fun r hr hself => ?_,
    fun m' => pruneInvalidCoverages_perm, ?_⟩
  · obtain ⟨k, rfl⟩ := Nat.exists_eq_add_of_le hfuel
    rw [pruneFor_eq, pruneInvalidCoverages_eq]
    exact Descent.settle_add (f := fun x : Manifest => x.pruneOnce policy changed)
      (μ := fun x => x.certificates.length) (fun _ => certificates_length_lt) (Nat.lt_succ_self _) k
  · rw [pruneInvalidCoverages_eq]
    exact Descent.settle_le Selects.refl (fun _ _ _ h h' => h.trans h') pruneOnce_selects _ m
  · rw [pruneInvalidCoverages_eq]
    exact Descent.le_settle (fun _ _ => pruneOnce_mono) (selfSupporting_iff.mp hself) hr _
  · rw [pruneInvalidCoverages_eq (m.pruneInvalidCoverages policy changed)]
    exact Descent.settle_of_fixed hfixed _

end Manifest

/-- A pack that certifies a group by a pack that is not there. -/
def dangling : Manifest :=
  { packs := [{ checksum := "b", groupCoverages := [⟨"code", "p", 0, ["missing"], ""⟩] }] }

/-- The certificates of a changed pack stay without any support. -/
theorem pruneInvalidCoverages_keeps_changed :
    ∃ c ∈ (dangling.pruneInvalidCoverages ⟨"p", .empty⟩ ["b"]).certificates,
      ¬ (dangling.pruneInvalidCoverages ⟨"p", .empty⟩ ["b"]).Supported ⟨"p", .empty⟩ c := by
  refine ⟨⟨"code", "p", 0, ["missing"], ""⟩, by decide, fun h => ?_⟩
  exact absurd (Manifest.supported_iff.mp h) (by decide)

end Walgit
