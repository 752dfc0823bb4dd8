import Walgit.Coverage
import Walgit.RefConflicts

/-!
# The inventory over time

A pack enters the live list with a push, a compaction or an import and leaves it for the
retired list, from which clients that hold its name are still served. What one write moves
between the two lists is stated once, for every writer; that packs are served forever and
when a checksum is live twice both follow from it.
-/
namespace Walgit

/-- A direct import: the pack set and the refs to publish, and the sequence it publishes at. -/
structure DirectImport where
  repo : String
  packs : List PackRef
  refs : RefState
  historyPack : Bool
  replace : Bool
  seq : ℕ
  createdAt : Timestamp
  writer : String

namespace Manifest

def checksums (m : Manifest) : List String := m.packs.map PackRef.checksum

def retired (m : Manifest) : List String := m.retiredPacks.map RetiredPack.checksum

/-- The pack can be downloaded: it is live, or it was. -/
def servesPack (m : Manifest) (checksum : String) : Bool :=
  m.packs.any (fun p => p.checksum == checksum) ||
    m.retiredPacks.any (fun p => p.checksum == checksum)

theorem servesPack_iff {m : Manifest} {checksum : String} :
    m.servesPack checksum = true ↔ checksum ∈ m.checksums ∨ checksum ∈ m.retired := by
  simp [servesPack, checksums, retired]

end Manifest

namespace DirectImport

variable (d : DirectImport)

def objectChecksums : List String :=
  (d.packs.filter fun p => p.kind = .objects).map PackRef.checksum

/-- The manifest already holds exactly this import. -/
def heldBy (m : Manifest) : Bool :=
  d.objectChecksums.all (fun id => m.packs.any fun p => p.checksum == id) &&
    (!d.historyPack ||
      m.packs.any fun p => p.kind == .history && d.objectChecksums.contains p.derivedFrom) &&
    decide (0 < m.headSeq)

/-- A pack that is committed already keeps its classification and provenance. -/
def retained (base : Manifest) (pack : PackRef) : Except String PackRef :=
  match base.packs.find? fun p => p.checksum == pack.checksum with
  | none => .ok pack
  | some previous =>
    if previous.packSize ≠ pack.packSize ∨ previous.idxSize ≠ pack.idxSize then
      .error ("committed pack " ++ pack.checksum ++ " disagrees with import sizes")
    else .ok { previous with
      hasRev := previous.hasRev || pack.hasRev
      hasBitmap := previous.hasBitmap || pack.hasBitmap
      hasCommitGraph := previous.hasCommitGraph || pack.hasCommitGraph }

/-- The manifest an import commits over the one it captured, or over an absent one; `none` when
there is nothing to do. -/
def manifest (base : Option Manifest) : Except String (Option Manifest) := do
  let m := base.getD {}
  if d.heldBy m then pure none
  else
    if 0 < m.headSeq ∧ !d.replace then
      throw (d.repo ++ " already has " ++ toString m.headSeq ++
        " entries; pass --replace to supersede its content")
    let packs ← d.packs.mapM (retained m)
    let removed := m.checksums.filter fun old => packs.all fun new => new.checksum ≠ old
    let m' := m.retirePacksAt removed d.seq d.createdAt
    if m.forgeNextNumber ≠ 0 then
      throw (d.repo ++ " has issues or pull requests; a direct import would drop them")
    pure (some ({ m' with
      headSeq := d.seq
      minSeq := d.seq + 1
      checkpoint := some
        { seq := d.seq
          createdAt := some d.createdAt
          firstStateAt := (m.checkpoint.bind CheckpointRef.firstStateAt).or (some d.createdAt)
          asOf := some d.createdAt
          refs := d.refs
          forge := none }
      logSegments := []
      packs := packs }.stamp d.createdAt d.writer))

end DirectImport

/-- The effect of one write on the inventory: packs leave, packs join, and a pack that left for
good is on record. -/
structure Moved (m m' : Manifest) (gone added : List String) : Prop where
  live : m'.checksums.Perm (m.checksums.filter (· ∉ gone) ++ added)
  retired : m.retiredPacks <+: m'.retiredPacks
  recorded : ∀ id ∈ m.checksums, id ∈ gone → id ∉ added → id ∈ m'.retired
  once : m.retired.Nodup → m'.retired.Nodup

section Retire

variable (ids : List String) (seq : ℕ) (time : Timestamp)

/-- One pass over the live packs, from any list of records. -/
theorem foldl_retire (packs : List PackRef) (records : List RetiredPack) :
    let after := packs.foldl (fun retired p =>
      if p.checksum ∈ ids && retired.all (fun r => r.checksum ≠ p.checksum) then
        retired ++ [⟨p.checksum, some time, seq⟩]
      else retired) records
    records <+: after ∧
      ((records.map RetiredPack.checksum).Nodup → (after.map RetiredPack.checksum).Nodup) ∧
      ∀ p ∈ packs, p.checksum ∈ ids → p.checksum ∈ after.map RetiredPack.checksum := by
  induction packs generalizing records with
  | nil => simp
  | cons p packs ih =>
    simp only [List.foldl_cons]
    split_ifs with hnew
    · simp only [Bool.and_eq_true, decide_eq_true_eq, List.all_eq_true] at hnew
      obtain ⟨hgrows, honce, hrecorded⟩ := ih (records ++ [⟨p.checksum, some time, seq⟩])
      have hmem : p.checksum ∈
          (records ++ [(⟨p.checksum, some time, seq⟩ : RetiredPack)]).map RetiredPack.checksum := by
        simp
      refine ⟨(List.prefix_append ..).trans hgrows, fun hnodup => honce ?_, ?_⟩
      · rw [List.map_append, List.nodup_append]
        refine ⟨hnodup, by simp, fun c hc c' hc' heq => ?_⟩
        obtain ⟨r, hr, hrc⟩ := List.mem_map.mp hc
        rw [List.map_singleton, List.mem_singleton] at hc'
        exact hnew.2 r hr (by rw [hrc, heq, hc'])
      · rw [List.forall_mem_cons]
        exact ⟨fun _ => (hgrows.map RetiredPack.checksum).subset hmem, hrecorded⟩
    · obtain ⟨hgrows, honce, hrecorded⟩ := ih records
      refine ⟨hgrows, honce, ?_⟩
      rw [List.forall_mem_cons]
      refine ⟨fun hp => (hgrows.map RetiredPack.checksum).subset ?_, hrecorded⟩
      simp only [hp, decide_true, Bool.true_and, List.all_eq_true, decide_eq_true_eq, not_forall,
        not_not] at hnew
      obtain ⟨r, hr, hrc⟩ := hnew
      exact hrc ▸ List.mem_map_of_mem hr

/-- Retirement keeps every record and adds one for each live pack it names. -/
theorem retirePacksAt_spec (m : Manifest) :
    let m' := m.retirePacksAt ids seq time
    m.retiredPacks <+: m'.retiredPacks ∧ (m.retired.Nodup → m'.retired.Nodup) ∧
      ∀ id ∈ m.checksums, id ∈ ids → id ∈ m'.retired := by
  obtain ⟨hgrows, honce, hrecorded⟩ :=
    foldl_retire ids seq time m.packs m.retiredPacks
  refine ⟨hgrows, honce, fun id hid => ?_⟩
  obtain ⟨p, hp, rfl⟩ := List.mem_map.mp hid
  exact hrecorded p hp

end Retire

/-- A write that keeps both lists, as far as checksums go. -/
theorem Moved.same {m m' : Manifest} (hlive : m'.checksums = m.checksums)
    (hretired : m'.retiredPacks = m.retiredPacks) : Moved m m' [] [] where
  live := by simp [hlive]
  retired := hretired ▸ List.prefix_rfl
  recorded := fun _ _ hgone => absurd hgone (by simp)
  once := by simp [Manifest.retired, hretired]

/-- What does not touch the two lists can follow a write. -/
theorem Moved.congr {m m' m'' : Manifest} {gone added : List String} (h : Moved m m' gone added)
    (hlive : m''.checksums = m'.checksums) (hretired : m''.retiredPacks = m'.retiredPacks) :
    Moved m m'' gone added where
  live := hlive ▸ h.live
  retired := hretired ▸ h.retired
  recorded := by simpa only [Manifest.retired, hretired] using h.recorded
  once := by simpa only [Manifest.retired, hretired] using h.once

namespace Manifest

/-- The checksums and records of a manifest. -/
def inventory (m : Manifest) : List String × List RetiredPack := (m.checksums, m.retiredPacks)

theorem inventory_pruneFor (fuel : ℕ) (m : Manifest) (policy : PackPolicy)
    (changed : List String) : (pruneFor fuel m policy changed).inventory = m.inventory := by
  induction fuel generalizing m with
  | zero => rfl
  | succ fuel ih =>
    have honce : (m.pruneOnce policy changed).inventory = m.inventory :=
      Prod.ext (pruneOnce_checksums policy changed m) rfl
    simp only [pruneFor]
    split_ifs
    · exact honce
    · rw [ih, honce]

theorem inventory_pruneInvalidCoverages (m : Manifest) (policy : PackPolicy)
    (changed : List String) : (m.pruneInvalidCoverages policy changed).inventory = m.inventory :=
  inventory_pruneFor _ m policy changed

end Manifest

theorem Moved.of_basis {m₀ m m' : Manifest} {gone added : List String}
    (h : Moved m m' gone added) (heq : m₀.inventory = m.inventory) : Moved m₀ m' gone added := by
  obtain ⟨hsums, hretired⟩ := Prod.ext_iff.mp heq
  change m₀.checksums = m.checksums at hsums
  change m₀.retiredPacks = m.retiredPacks at hretired
  refine ⟨hsums ▸ h.live, hretired ▸ h.retired, hsums ▸ h.recorded, fun honce => h.once ?_⟩
  rwa [Manifest.retired, ← hretired]

theorem Moved.of_inventory {m m' m'' : Manifest} {gone added : List String}
    (h : Moved m m' gone added) (heq : m''.inventory = m'.inventory) : Moved m m'' gone added :=
  h.congr (congrArg Prod.fst heq) (congrArg Prod.snd heq)

/-- Writes in place keep the checksums. -/
theorem Patched.checksums {ω : Type} {id : ω → String} {certs : ω → List PackGroupCoverage}
    {ws : List ω} {packs packs' : List PackRef} (h : Patched id certs ws packs packs') :
    packs'.map PackRef.checksum = packs.map PackRef.checksum := by
  induction h with
  | nil packs => rfl
  | cons kept rest ih => rw [ih, modifyFirst_checksums fun p hp => (kept p hp).1]

/-- Rewriting the sequence of new records leaves the old ones alone. -/
theorem sealRetiredSeq_spec {before after : Manifest} (retire : List String) (seq : ℕ)
    (h : before.retiredPacks <+: after.retiredPacks) :
    before.retiredPacks <+: (sealRetiredSeq before after retire seq).retiredPacks ∧
      (sealRetiredSeq before after retire seq).retired = after.retired := by
  constructor
  · have hold : before.retiredPacks.map (fun r =>
        if r.checksum ∈ retire && before.retiredPacks.all (fun p => p.checksum ≠ r.checksum) then
          { r with retiredSeq := seq }
        else r) = before.retiredPacks := by
      refine (List.map_congr_left fun r hr => ?_).trans (List.map_id _)
      rw [if_neg]
      · rfl
      · simp only [Bool.and_eq_true, List.all_eq_true, decide_eq_true_eq, not_and, not_forall]
        exact fun _ => ⟨r, hr, fun hne => hne rfl⟩
    simpa only [hold, sealRetiredSeq] using h.map fun r =>
      if r.checksum ∈ retire && before.retiredPacks.all (fun p => p.checksum ≠ r.checksum) then
        { r with retiredSeq := seq }
      else r
  · simp only [Manifest.retired, sealRetiredSeq, List.map_map]
    refine List.map_congr_left fun r _ => ?_
    simp only [Function.comp_apply]
    split_ifs <;> rfl

section Writers

variable [Text.CharTables]

/-- The packs that the accepted requests of a batch bring. -/
def newPacks (b : Basis) (reqs : List PublishRequest) : List String :=
  (accepted reqs (verifyBatch b reqs).1).filterMap fun p => p.1.pack.map IngestedPack.checksum

omit [Text.CharTables] in
theorem buildEntries_packs (writer : String) (publishedAt : Timestamp) (now : ℕ → Timestamp)
    (n : ℕ) (members : List (PublishRequest × List ForgeEvent)) :
    ((buildEntries writer publishedAt now n members).filterMap LogEntry.pack).map
        PackRef.checksum =
      members.filterMap fun p => p.1.pack.map IngestedPack.checksum := by
  induction members generalizing n with
  | nil => rfl
  | cons p members ih =>
    obtain ⟨req, forge⟩ := p
    cases hpack : req.pack with
    | none => simpa [buildEntries, buildEntry, hpack] using ih (n + 1)
    | some pack => simpa [buildEntries, buildEntry, hpack, packRefFromIngested] using ih (n + 1)

omit [Text.CharTables] in
theorem checksums_sortByKey {f : PackRef → ℕ} {packs : List PackRef} :
    ((sortByKey f packs).map PackRef.checksum).Perm (packs.map PackRef.checksum) :=
  (List.perm_insertionSort _ packs).map PackRef.checksum

theorem moved_batch {reqs : List PublishRequest} {a : Attempt} {now : Timestamp}
    {seg : LogSegmentRef} {m' : Manifest} (h : (Job.batch reqs).manifest a now seg = .ok m') :
    Moved a.basis.manifest m' [] (newPacks a.basis reqs) := by
  cases h
  refine ⟨?_, List.prefix_rfl, fun _ _ hgone => absurd hgone (by simp), id⟩
  refine checksums_sortByKey.trans ?_
  rw [List.map_append, buildEntries_packs]
  simp [Manifest.checksums, newPacks]

omit [Text.CharTables] in
/-- Live packs that a write filters out after it retired them. -/
theorem moved_retire (m : Manifest) (ids : List String) (seq : ℕ) (time : Timestamp)
    (kept : PackRef → Bool) (packs added : List PackRef) (gone : List String)
    (hkept : ∀ p, kept p = decide (p.checksum ∉ gone))
    (hids : ∀ id ∈ gone, id ∉ added.map PackRef.checksum → id ∈ ids)
    (hpacks : packs.Perm (m.packs.filter kept ++ added)) :
    Moved m { m.retirePacksAt ids seq time with packs := packs } gone
      (added.map PackRef.checksum) := by
  obtain ⟨hgrows, honce, hrecorded⟩ := retirePacksAt_spec ids seq time m
  refine ⟨?_, hgrows, fun id hid hgone hadded => hrecorded id hid (hids id hgone hadded), honce⟩
  have hfilter : (m.packs.filter kept).map PackRef.checksum =
      m.checksums.filter (· ∉ gone) := by
    rw [Manifest.checksums, List.filter_map]
    exact congrArg _ (List.filter_congr fun p _ => hkept p)
  have hperm := hpacks.map PackRef.checksum
  rw [List.map_append, hfilter] at hperm
  exact hperm

theorem moved_compact {info : PackInfo} {supersedes : List String} {tier : ℕ}
    {classification : Option PackClassification} {a : Attempt} {now : Timestamp}
    {seg : LogSegmentRef} {m' : Manifest}
    (h : (Job.compact info supersedes tier classification).manifest a now seg = .ok m') :
    Moved a.basis.manifest m' (info.checksum :: supersedes) [info.checksum] := by
  simp only [Job.manifest, Checks.bind_eq_ok] at h
  obtain ⟨pack, hpack, h⟩ := h
  cases h
  rw [← Packing.compactPack_checksum hpack]
  have hmoved := moved_retire a.basis.manifest (supersedes.filter (· ≠ pack.checksum))
    seg.firstSeq now (fun p => p.checksum ∉ supersedes && p.checksum ≠ pack.checksum) _
    [{ pack with seq := seg.firstSeq }] (pack.checksum :: supersedes)
    (fun p => by simp [Bool.and_comm]) (fun id hgone hadded => by simp_all)
    (List.perm_insertionSort (fun p q : PackRef => p.seq ≤ q.seq) _)
  have hpruned := hmoved.of_inventory
    (Manifest.inventory_pruneInvalidCoverages _ a.policy [pack.checksum])
  exact hpruned.congr rfl rfl

omit [Text.CharTables] in
theorem moved_control [Text.CharTables] {c : Control} {a : Attempt} {now : Timestamp}
    {seg : LogSegmentRef} {m' : Manifest} (h : (Job.control c).manifest a now seg = .ok m') :
    Moved a.basis.manifest m' [] [] := by
  simp only [Job.manifest, Checks.bind_eq_ok] at h
  obtain ⟨⟨template, next⟩, hprepare, h⟩ := h
  cases h
  rw [Control.prepare_eq hprepare]
  exact Moved.same rfl rfl

theorem moved_seal {captured : Manifest} {inputs : List String} {outputs : List PackRef}
    {a : Attempt} {now : Timestamp} {seg : LogSegmentRef} {m' : Manifest}
    (h : (Job.sealPacks captured inputs outputs).manifest a now seg = .ok m') :
    Moved a.basis.manifest m' (sealRetired inputs outputs) [] := by
  simp only [Job.manifest, Checks.bind_eq_ok] at h
  obtain ⟨sealed, hsealed, h⟩ := h
  cases h
  simp only [sealManifest, Checks.guard_ok, Checks.bind_eq_ok] at hsealed
  obtain ⟨-, -, -, -, packs, hpacks, hsealed⟩ := hsealed
  cases hsealed
  set basis := a.basis.manifest
  have hsame : Manifest.inventory { basis with packs := packs } = basis.inventory :=
    Prod.ext (sealOutputs_patched hpacks).checksums rfl
  have hmoved := moved_retire { basis with packs := packs } (sealRetired inputs outputs)
    (basis.headSeq + 1) a.startedAt (fun p => p.checksum ∉ sealRetired inputs outputs)
    (packs.filter fun p => p.checksum ∉ sealRetired inputs outputs) [] (sealRetired inputs outputs)
    (fun p => rfl) (fun id hgone _ => hgone) (by simp)
  have hpruned := (hmoved.of_basis hsame.symm).of_inventory
    (Manifest.inventory_pruneInvalidCoverages _ a.policy (outputs.map PackRef.checksum))
  obtain ⟨hgrows, hretired⟩ :=
    sealRetiredSeq_spec (sealRetired inputs outputs) seg.firstSeq hpruned.retired
  refine ⟨hpruned.live, hgrows, fun id hid hgone hadded => ?_, fun honce => ?_⟩
  · exact hretired.symm ▸ hpruned.recorded id hid hgone hadded
  · exact hretired.symm ▸ hpruned.once honce

end Writers

theorem moved_rewrite {job : MetaJob} {m m' : Manifest} {policy : PackPolicy} {writer : String}
    {now : Timestamp} (h : job.manifest m policy writer now = some m') : Moved m m' [] [] := by
  cases job with
  | checkpoint view cp =>
    simp only [MetaJob.manifest] at h
    split_ifs at h
    cases h
    exact Moved.same rfl rfl
  | annotate checksum rev bitmap commitGraph =>
    simp only [MetaJob.manifest] at h
    split_ifs at h
    cases h
    refine Moved.same ?_ rfl
    change (modifyFirst _ _ m.packs).map PackRef.checksum = m.packs.map PackRef.checksum
    refine modifyFirst_checksums ?_ m.packs
    exact fun _ hp => hp
  | reclassify changes =>
    simp only [MetaJob.manifest, Option.bind_eq_bind, Option.bind_eq_some_iff] at h
    obtain ⟨packs, hpacks, h⟩ := h
    cases h
    have hpatched : Moved m { m with packs := packs } [] [] :=
      Moved.same (reclassify_patched hpacks).checksums rfl
    have hpruned := hpatched.of_inventory (Manifest.inventory_pruneInvalidCoverages _ policy
      (changes.map PackClassification.checksum))
    exact hpruned.congr rfl rfl

namespace Edit

/-- The checksums a write takes out of the live list. -/
def gone : Edit → List String
  | append (.compact info supersedes _ _) _ _ _ _ => info.checksum :: supersedes
  | append (.sealPacks _ inputs outputs) _ _ _ _ => sealRetired inputs outputs
  | _ => []

/-- The checksums a write puts at the end of the live list. -/
def added [Text.CharTables] : Edit → List String
  | append (.batch reqs) a _ _ _ => newPacks a.basis reqs
  | append (.compact info _ _ _) _ _ _ _ => [info.checksum]
  | _ => []

theorem moved [Text.CharTables] {m m' : Manifest} {e : Edit} (h : e.manifest m = some m') :
    Moved m m' e.gone e.added := by
  cases e with
  | append job a now seg candidates =>
    simp only [manifest] at h
    split_ifs at h with hbasis
    rw [Checks.toOption_eq_some] at h
    cases hbasis
    cases job with
    | batch reqs => exact moved_batch h
    | compact info supersedes tier classification => exact moved_compact h
    | control c => exact moved_control h
    | sealPacks captured inputs outputs => exact moved_seal h
  | rewrite job policy writer now candidates => exact moved_rewrite h

end Edit

/-- An import replaces the live list. -/
theorem DirectImport.moved {d : DirectImport} {base : Option Manifest} {m' : Manifest}
    (h : d.manifest base = .ok (some m')) :
    Moved (base.getD {}) m' (base.getD {}).checksums m'.checksums := by
  set m := base.getD {} with hm
  simp only [manifest, ← hm] at h
  split at h
  · cases h
  · simp only [Checks.guard_ok, Checks.bind_eq_ok] at h
    obtain ⟨-, packs, -, -, h⟩ := h
    cases h
    have hmoved := moved_retire m
      (m.checksums.filter fun old => packs.all fun new => new.checksum ≠ old) d.seq d.createdAt
      (fun p => p.checksum ∉ m.checksums) packs packs m.checksums (fun p => rfl)
      (fun id hid hnew => ?_) ?_
    · exact hmoved.congr rfl rfl
    · refine List.mem_filter.mpr ⟨hid, ?_⟩
      simp only [List.all_eq_true, decide_eq_true_eq]
      exact fun new hmem heq => hnew (heq ▸ List.mem_map_of_mem hmem)
    · have hnone : m.packs.filter (fun p => p.checksum ∉ m.checksums) = [] := by
        simp only [List.filter_eq_nil_iff, decide_eq_true_eq, not_not]
        exact fun p hp => List.mem_map_of_mem hp
      rw [hnone]
      exact List.Perm.refl _

namespace Manifest

section Writes

variable [Text.CharTables]

/-- One manifest write, by any of the writers, swapped in over the manifest it was made from. -/
inductive Writes : Manifest → Manifest → Prop
  | edit {m m' : Manifest} (e : Edit) (h : e.manifest m = some m') : Writes m m'
  | directImport {m m' : Manifest} (d : DirectImport) (h : d.manifest (some m) = .ok (some m')) :
      Writes m m'

/-- A repository's first manifest is that of its creation, or of an import. -/
inductive First : Manifest → Prop
  | created (access : Option RepoAccess) (now : Timestamp) (writer : String) :
      First (createdManifest access now writer)
  | imported {m : Manifest} (d : DirectImport) (h : d.manifest none = .ok (some m)) : First m

/-- The manifests any sequence of writes can lead to. -/
def Reachable (m : Manifest) : Prop := ∃ first, First first ∧ Relation.ReflTransGen Writes first m

theorem Writes.moved {m m' : Manifest} (h : Writes m m') : ∃ gone added, Moved m m' gone added := by
  cases h with
  | edit e h => exact ⟨e.gone, e.added, e.moved h⟩
  | directImport d h => exact ⟨_, _, d.moved h⟩

omit [Text.CharTables] in
theorem First.retired_nodup {m : Manifest} (h : First m) : m.retired.Nodup := by
  cases h with
  | created access now writer => exact List.nodup_nil
  | imported d h => exact (d.moved h).once List.nodup_nil

theorem Reachable.retired_nodup {m : Manifest} (h : m.Reachable) : m.retired.Nodup := by
  obtain ⟨first, hfirst, hpath⟩ := h
  induction hpath with
  | refl => exact hfirst.retired_nodup
  | tail _ hstep ih =>
    obtain ⟨gone, added, hmoved⟩ := hstep.moved
    exact hmoved.once ih

end Writes

end Manifest

/-- A write drops no checksum from both lists. -/
theorem Moved.serves {m m' : Manifest} {gone added : List String} (h : Moved m m' gone added)
    {id : String} (hid : m.servesPack id = true) : m'.servesPack id = true := by
  rw [Manifest.servesPack_iff] at hid ⊢
  rcases hid with hlive | hretired
  · by_cases hadded : id ∈ added
    · exact Or.inl (h.live.mem_iff.mpr (List.mem_append_right _ hadded))
    · by_cases hgone : id ∈ gone
      · exact Or.inr (h.recorded id hlive hgone hadded)
      · refine Or.inl (h.live.mem_iff.mpr (List.mem_append_left _ ?_))
        exact List.mem_filter.mpr ⟨hlive, by simpa using hgone⟩
  · exact Or.inr ((h.retired.map RetiredPack.checksum).subset hretired)

/-- A pack that a manifest lists as live is served by every later manifest, and the record of a
retirement, its sequence included, is the only one of its checksum from then on. -/
theorem packs_served_forever [Text.CharTables] {m m' : Manifest} (hm : m.Reachable)
    (hlater : Relation.ReflTransGen Manifest.Writes m m') :
    (∀ p ∈ m.packs, m'.servesPack p.checksum = true) ∧
      ∀ r ∈ m.retiredPacks, r ∈ m'.retiredPacks ∧
        ∀ r' ∈ m'.retiredPacks, r'.checksum = r.checksum → r'.retiredSeq = r.retiredSeq := by
  have hgrows : m.retiredPacks <+: m'.retiredPacks ∧
      ∀ id, m.servesPack id = true → m'.servesPack id = true := by
    induction hlater with
    | refl => exact ⟨List.prefix_rfl, fun _ h => h⟩
    | tail _ hstep ih =>
      obtain ⟨gone, added, hmoved⟩ := hstep.moved
      exact ⟨ih.1.trans hmoved.retired, fun id hid => hmoved.serves (ih.2 id hid)⟩
  have honce : m'.retired.Nodup := by
    obtain ⟨first, hfirst, hpath⟩ := hm
    exact Manifest.Reachable.retired_nodup ⟨first, hfirst, hpath.trans hlater⟩
  refine ⟨fun p hp => hgrows.2 _ (Manifest.servesPack_iff.mpr (Or.inl ?_)), fun r hr => ?_⟩
  · exact List.mem_map_of_mem hp
  · have hmem := hgrows.1.subset hr
    refine ⟨hmem, fun r' hr' heq => ?_⟩
    rw [List.inj_on_of_nodup_map honce hr' hmem heq]

section History

variable [Text.CharTables] {cfg : Config}

theorem Chain.reachable {g : Generation} {gens : List Generation} (h : Chain cfg (g :: gens)) :
    g.manifest.Reachable := by
  generalize hl : g :: gens = l at h
  induction h generalizing g gens with
  | created access now writer version =>
    cases hl
    exact ⟨_, .created access now writer, .refl⟩
  | append older o now m version basis wrote burned edit newer ih =>
    cases hl
    obtain ⟨first, hfirst, hpath⟩ := ih rfl
    obtain ⟨e, he⟩ := (Chain.append older o now m version basis wrote burned edit newer).edit
    exact ⟨first, hfirst, hpath.tail (.edit e he)⟩
  | rewrite older job policy writer now m version edit folded newer ih =>
    cases hl
    obtain ⟨first, hfirst, hpath⟩ := ih rfl
    exact ⟨first, hfirst, hpath.tail (.edit (.rewrite job policy writer now []) edit)⟩

/-- In a repository's history each manifest is written over the earlier ones. -/
theorem Chain.later {g : Generation} {gens : List Generation} (h : Chain cfg (g :: gens))
    {g₀ : Generation} (hmem : g₀ ∈ g :: gens) :
    Relation.ReflTransGen Manifest.Writes g₀.manifest g.manifest := by
  induction gens generalizing g with
  | nil => rw [List.mem_singleton.mp hmem]
  | cons g' gens ih =>
    rcases List.mem_cons.mp hmem with rfl | hmem
    · exact .refl
    · obtain ⟨e, he⟩ := h.edit
      exact (ih h.older.1 hmem).tail (.edit e he)

end History

section Compacted

attribute [local instance] Text.asciiTables

/-- Pack `b` replaces pack `a`. -/
def compactPushed (m : Manifest) : Edit :=
  .append (.compact ⟨"b", 100, 10, 3, false, false, false, none⟩ ["a"] 1 none)
    ⟨⟨m, some 1, .new .fresh, .empty, none⟩, ⟨"", .empty⟩, "w", ⟨4, 0⟩⟩ ⟨5, 0⟩
    (segmentRef (m.headSeq + 1) (m.headSeq + 1) 1) []

/-- A compacted pack is still served. -/
theorem packs_served_forever_compacted :
    ∃ m m' : Manifest, m.checksums = ["a"] ∧ m'.checksums = ["b"] ∧ m'.servesPack "a" = true := by
  set first := createdManifest none ⟨1, 0⟩ "w"
  have hsome : (((pushPack first "refs/heads/main").manifest first).bind fun m =>
      ((compactPushed m).manifest m).map fun m' => (m.checksums, m'.checksums)) =
        some (["a"], ["b"]) := by decide
  obtain ⟨m, hm, hcompact⟩ := Option.bind_eq_some_iff.mp hsome
  obtain ⟨m', hm', heq⟩ := Option.map_eq_some_iff.mp hcompact
  obtain ⟨hlive, hlive'⟩ := Prod.mk.inj heq
  have hreachable : m.Reachable := ⟨first, .created .., .single (.edit _ hm)⟩
  have hserved := (packs_served_forever hreachable (.single (.edit _ hm'))).1
  obtain ⟨p, hp, hpa⟩ := List.mem_map.mp (hlive ▸ List.mem_singleton_self "a")
  exact ⟨m, m', hlive, hlive', hpa ▸ hserved p hp⟩

end Compacted

section Distinct

variable [Text.CharTables] {cfg : Config}

/-- A batch brings each pack once, and none that is live already. -/
def Job.PacksFresh (b : Basis) : Job → Prop
  | .batch reqs => (newPacks b reqs).Nodup ∧ ∀ id ∈ newPacks b reqs, id ∉ b.manifest.checksums
  | _ => True

instance (b : Basis) : (job : Job) → Decidable (job.PacksFresh b)
  | .batch _ => inferInstanceAs (Decidable (_ ∧ _))
  | .compact .. | .control _ | .sealPacks .. => inferInstanceAs (Decidable True)

/-- Every committed batch brought fresh packs. -/
def PacksFresh (gens : List Generation) : Prop :=
  ∀ g ∈ gens, ∀ o ∈ g.origin, o.job.PacksFresh o.attempt.basis

instance (gens : List Generation) : Decidable (PacksFresh gens) :=
  inferInstanceAs (Decidable (∀ g ∈ gens, ∀ o ∈ g.origin, _))

theorem packsFresh_cons {g : Generation} {gens : List Generation} :
    PacksFresh (g :: gens) ↔
      (∀ o ∈ g.origin, o.job.PacksFresh o.attempt.basis) ∧ PacksFresh gens :=
  List.forall_mem_cons

/-- Whatever joins replaces what it names, in every write but a batch. -/
theorem Job.nodup_iff {job : Job} {a : Attempt} {now : Timestamp} {seg : LogSegmentRef}
    {m' : Manifest} (h : job.manifest a now seg = .ok m')
    (hbasis : a.basis.manifest.checksums.Nodup) :
    m'.checksums.Nodup ↔ job.PacksFresh a.basis := by
  cases job with
  | batch reqs =>
    rw [(moved_batch h).live.nodup_iff, List.nodup_append]
    simp only [List.not_mem_nil, not_false_eq_true, decide_true, List.filter_true, PacksFresh]
    constructor
    · rintro ⟨-, hnew, hdisjoint⟩
      exact ⟨hnew, fun id hid hlive => hdisjoint id hlive id hid rfl⟩
    · rintro ⟨hnew, hfresh⟩
      exact ⟨hbasis, hnew, fun id hlive id' hid heq => hfresh id' hid (heq ▸ hlive)⟩
  | compact info supersedes tier classification =>
    refine iff_of_true ?_ trivial
    rw [(moved_compact h).live.nodup_iff, List.nodup_append]
    refine ⟨hbasis.filter _, by simp, fun id hid id' hid' heq => ?_⟩
    simp only [List.mem_cons, List.not_mem_nil, or_false] at hid'
    simp [heq, hid'] at hid
  | control c =>
    refine iff_of_true ?_ trivial
    rw [(moved_control h).live.nodup_iff]
    simpa using hbasis
  | sealPacks captured inputs outputs =>
    refine iff_of_true ?_ trivial
    rw [(moved_seal h).live.nodup_iff, List.append_nil]
    exact hbasis.filter _

theorem Chain.distinct {gens : List Generation} (h : Chain cfg gens) :
    (∀ g ∈ gens, g.manifest.checksums.Nodup) ↔ PacksFresh gens := by
  induction h with
  | created access now writer version =>
    simp [PacksFresh, createdManifest, Manifest.checksums]
  | @append g gens older o now m version basis wrote burned edit newer ih =>
    rw [List.forall_mem_cons, packsFresh_cons, ← ih]
    refine and_congr_left fun hold => ?_
    have hbasis : o.attempt.basis.manifest.checksums.Nodup :=
      basis ▸ hold g List.mem_cons_self
    simpa using Job.nodup_iff edit hbasis
  | @rewrite g gens older job policy writer now m version edit folded newer ih =>
    rw [List.forall_mem_cons, packsFresh_cons, ← ih]
    refine and_congr_left fun hold => iff_of_true ?_ (by simp)
    rw [(moved_rewrite edit).live.nodup_iff]
    simpa using hold g List.mem_cons_self

/-- The live lists of a run hold each checksum at most once exactly if no committed batch brought
a pack twice or one that was live already. -/
theorem inventory_distinct {access : Option RepoAccess} {now : Timestamp} {writer : String}
    {w : World} {actions : List Action}
    (hrun : Runs.run (step cfg) (World.created (createdManifest access now writer)) actions =
      some w) :
    (∀ g ∈ w.gens, g.manifest.checksums.Nodup) ↔ PacksFresh w.gens :=
  (inv_run hrun).chain.distinct

end Distinct

section Copies

attribute [local instance] Text.asciiTables

/-- One batch of pushes, each a new branch with its pack. -/
def uploads (branches : List (String × String)) : List Action :=
  [.start 1 (.batch (branches.map fun b =>
      { createBranch b.1 with pack := some ⟨b.2, 100, 10, 3⟩ })),
    .capture 1 ⟨⟨createdManifest none ⟨1, 0⟩ "w", some 0, .new .fresh, .empty, none⟩,
      ⟨"", .empty⟩, "w", ⟨2, 0⟩⟩,
    .claim 1 "n" (fun _ => ⟨2, 0⟩) .delivered, .swap 1 ⟨3, 0⟩ .delivered, .finish 1]

/-- Two branches with a pack each. -/
theorem inventory_distinct_uploads :
    ∃ w : World, w.gens.map (fun g => g.manifest.checksums) = [["a", "b"], []] ∧
      ∀ g ∈ w.gens, g.manifest.checksums.Nodup := by
  have hsome : ((Runs.run (step ⟨3, List.length⟩) (World.created (createdManifest none ⟨1, 0⟩ "w"))
      (uploads [("refs/heads/main", "a"), ("refs/heads/dev", "b")])).map fun w =>
        (w.gens.map fun g => g.manifest.checksums, decide (PacksFresh w.gens))) =
          some ([["a", "b"], []], true) := by
    decide
  obtain ⟨w, hrun, heq⟩ := Option.map_eq_some_iff.mp hsome
  simp only [Prod.mk.injEq, decide_eq_true_eq] at heq
  exact ⟨w, heq.1, (inventory_distinct hrun).mpr heq.2⟩

/-- Two branches at the same commit, pushed with the same pack. -/
theorem inventory_repeats_upload :
    ∃ w : World, Runs.run (step ⟨3, List.length⟩)
        (World.created (createdManifest none ⟨1, 0⟩ "w"))
        (uploads [("refs/heads/main", "a"), ("refs/heads/dev", "a")]) = some w ∧
      ¬∀ g ∈ w.gens, g.manifest.checksums.Nodup := by
  have hsome : ((Runs.run (step ⟨3, List.length⟩) (World.created (createdManifest none ⟨1, 0⟩ "w"))
      (uploads [("refs/heads/main", "a"), ("refs/heads/dev", "a")])).map fun w =>
        w.gens.map fun g => g.manifest.checksums) = some [["a", "a"], []] := by
    decide
  obtain ⟨w, hrun, heq⟩ := Option.map_eq_some_iff.mp hsome
  refine ⟨w, hrun, fun hdistinct => ?_⟩
  have hall : ∀ ids ∈ w.gens.map (fun g => g.manifest.checksums), ids.Nodup := by
    simpa using hdistinct
  rw [heq] at hall
  exact absurd (hall _ List.mem_cons_self) (by decide)

end Copies

end Walgit
