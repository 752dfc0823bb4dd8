import Walgit.CompareAndSwap
import Walgit.Inventory
import Walgit.Objects
import Walgit.SortedUnion

/-!
# Replacing packs

A seal retires its inputs in favour of its outputs. Before it claims a slot it merges the index
files of both and looks every current tip up in the packs it keeps, all against the manifest and
the refs it captured. Index files are named by the checksum of their pack and never change.
-/
namespace Walgit

/-- The object ids in the index file of a pack. -/
abbrev Indexes : Type := String → List Oid

/-- An index of the live packs lists the object. -/
def Manifest.Indexed (m : Manifest) (indexes : Indexes) (oid : Oid) : Prop :=
  ∃ id ∈ m.checksums, oid ∈ indexes id

section Verify

variable (indexes : Indexes)

/-- The merged indexes of the live packs with these checksums. -/
def indexUnion (current : Manifest) (ids : List String) : List Oid :=
  SortedUnion.toList ((current.checksums.filter (· ∈ ids)).map indexes)

def replacementLoses (oid : Oid) : String := "replacement loses indexed object " ++ oid

def replacementUncovered (name : String) (oid : Oid) : String :=
  "replacement does not cover current tip " ++ name ++ " (" ++ oid ++ ")"

def checkTip (current result : Manifest) (reference : String × Oid) : Except String Unit :=
  if current.checksums.any fun id =>
      id ∈ result.checksums && (indexes id).contains reference.2 then .ok ()
  else .error (replacementUncovered reference.1 reference.2)

def verifyReplacementInventory (current result : Manifest) (refs : SortedMap String Oid)
    (inputs : List String) (outputs : List PackRef) : Except String Unit :=
  match SortedUnion.firstMissing (indexUnion indexes current inputs)
      (indexUnion indexes current (outputs.map PackRef.checksum)) with
  | some oid => .error (replacementLoses oid)
  | none => refs.entries.forM (checkTip indexes current result)

/-- What a publisher verified of an attempt before its claim; only seals verify anything. -/
def verifies (job : Job) (a : Attempt) : Bool :=
  match job with
  | .sealPacks captured inputs outputs =>
    match sealManifest a.basis.manifest a.policy captured inputs outputs a.startedAt with
    | .ok updated => (verifyReplacementInventory indexes a.basis.manifest updated
        a.basis.refs.base.refs inputs outputs).isOk
    | .error _ => false
  | _ => true

variable {indexes} {current result : Manifest} {refs : SortedMap String Oid}
  {inputs : List String} {outputs : List PackRef}

theorem mem_indexUnion {ids : List String} {oid : Oid} :
    oid ∈ indexUnion indexes current ids ↔ ∃ id ∈ current.checksums, id ∈ ids ∧ oid ∈ indexes id := by
  simp only [indexUnion, SortedUnion.mem_toList, List.mem_map, List.mem_filter, decide_eq_true_eq]
  constructor
  · rintro ⟨-, ⟨id, ⟨hlive, hid⟩, rfl⟩, hoid⟩
    exact ⟨id, hlive, hid, hoid⟩
  · rintro ⟨id, hlive, hid, hoid⟩
    exact ⟨indexes id, ⟨id, ⟨hlive, hid⟩, rfl⟩, hoid⟩

theorem checkTip_ok {reference : String × Oid} :
    checkTip indexes current result reference = .ok () ↔
      ∃ id ∈ current.checksums, id ∈ result.checksums ∧ reference.2 ∈ indexes id := by
  unfold checkTip
  split_ifs with h
  · simpa using h
  · simpa using h

/-- What a verified replacement was checked for. -/
theorem verifyReplacementInventory_ok
    (h : verifyReplacementInventory indexes current result refs inputs outputs = .ok ()) :
    (∀ id ∈ current.checksums, id ∈ inputs → ∀ oid ∈ indexes id,
      ∃ id' ∈ current.checksums, id' ∈ outputs.map PackRef.checksum ∧ oid ∈ indexes id') ∧
    ∀ reference ∈ refs.entries, ∃ id ∈ current.checksums, id ∈ result.checksums ∧
      reference.2 ∈ indexes id := by
  unfold verifyReplacementInventory at h
  split at h
  · cases h
  · rename_i hnone
    refine ⟨fun id hlive hid oid hoid => ?_, fun reference href => ?_⟩
    · have hsub := SortedUnion.subset_of_firstMissing hnone
      exact mem_indexUnion.mp (hsub (mem_indexUnion.mpr ⟨id, hlive, hid, hoid⟩))
    · exact checkTip_ok.mp (Checks.forM_ok.mp h reference href)

/-- Merged sorted indexes are sorted, without repetitions. -/
theorem indexUnion_sorted (hsorted : ∀ id, (indexes id).Pairwise (· ≤ ·)) (ids : List String) :
    (indexUnion indexes current ids).Pairwise (· < ·) := by
  refine SortedUnion.toList_sorted fun l hl => ?_
  obtain ⟨id, -, rfl⟩ := List.mem_map.mp hl
  exact hsorted id

/-- The walk along two merged indexes finds whatever the second one lacks. -/
theorem firstMissing_indexUnion (hsorted : ∀ id, (indexes id).Pairwise (· ≤ ·))
    {ids ids' : List String} :
    SortedUnion.firstMissing (indexUnion indexes current ids) (indexUnion indexes current ids') =
      none ↔ ∀ oid, (∃ id ∈ current.checksums, id ∈ ids ∧ oid ∈ indexes id) →
        ∃ id ∈ current.checksums, id ∈ ids' ∧ oid ∈ indexes id := by
  constructor
  · intro hnone oid hoid
    exact mem_indexUnion.mp (SortedUnion.subset_of_firstMissing hnone (mem_indexUnion.mpr hoid))
  · intro hsub
    cases hlost : SortedUnion.firstMissing (indexUnion indexes current ids)
        (indexUnion indexes current ids') with
    | none => rfl
    | some oid =>
      obtain ⟨hin, hout⟩ := SortedUnion.not_mem_of_firstMissing (indexUnion_sorted hsorted ids)
        (indexUnion_sorted hsorted ids') hlost
      exact absurd (mem_indexUnion.mpr (hsub oid (mem_indexUnion.mp hin))) hout

/-- On sorted index files nothing else is refused. -/
theorem verifyReplacementInventory_complete (hsorted : ∀ id, (indexes id).Pairwise (· < ·))
    (hinputs : ∀ id ∈ current.checksums, id ∈ inputs → ∀ oid ∈ indexes id,
      ∃ id' ∈ current.checksums, id' ∈ outputs.map PackRef.checksum ∧ oid ∈ indexes id')
    (htips : ∀ reference ∈ refs.entries, ∃ id ∈ current.checksums, id ∈ result.checksums ∧
      reference.2 ∈ indexes id) :
    verifyReplacementInventory indexes current result refs inputs outputs = .ok () := by
  have hnone : SortedUnion.firstMissing (indexUnion indexes current inputs)
      (indexUnion indexes current (outputs.map PackRef.checksum)) = none := by
    refine (firstMissing_indexUnion fun id => (hsorted id).imp fun hlt => hlt.le).mpr ?_
    rintro oid ⟨id, hlive, hid, hoid⟩
    exact hinputs id hlive hid oid hoid
  rw [verifyReplacementInventory, hnone]
  exact Checks.forM_ok.mpr fun reference href => checkTip_ok.mpr (htips reference href)

/-- The merge is the sorted union of the indexes, and the check of a replacement accepts exactly
when nothing is lost and the tips stay covered. -/
theorem indexUnion_exact (hsorted : ∀ id, (indexes id).Pairwise (· ≤ ·)) (current : Manifest) :
    (∀ ids, (indexUnion indexes current ids).Pairwise (· < ·) ∧
      ∀ oid, oid ∈ indexUnion indexes current ids ↔
        ∃ id ∈ current.checksums, id ∈ ids ∧ oid ∈ indexes id) ∧
    (∀ inputs outputs, SortedUnion.firstMissing (indexUnion indexes current inputs)
        (indexUnion indexes current outputs) = none ↔
      ∀ oid, (∃ id ∈ current.checksums, id ∈ inputs ∧ oid ∈ indexes id) →
        ∃ id ∈ current.checksums, id ∈ outputs ∧ oid ∈ indexes id) ∧
    ∀ result refs inputs outputs,
      verifyReplacementInventory indexes current result refs inputs outputs = .ok () ↔
        (∀ oid, (∃ id ∈ current.checksums, id ∈ inputs ∧ oid ∈ indexes id) →
          ∃ id ∈ current.checksums, id ∈ outputs.map PackRef.checksum ∧ oid ∈ indexes id) ∧
        ∀ reference ∈ refs.entries, ∃ id ∈ current.checksums, id ∈ result.checksums ∧
          reference.2 ∈ indexes id := by
  refine ⟨fun ids => ⟨indexUnion_sorted hsorted ids, fun oid => mem_indexUnion⟩,
    fun inputs outputs => firstMissing_indexUnion hsorted, fun result refs inputs outputs => ?_⟩
  constructor
  · intro h
    obtain ⟨hinputs, htips⟩ := verifyReplacementInventory_ok h
    exact ⟨fun oid ⟨id, hlive, hid, hoid⟩ => hinputs id hlive hid oid hoid, htips⟩
  · rintro ⟨hinputs, htips⟩
    rw [verifyReplacementInventory, (firstMissing_indexUnion hsorted).mpr hinputs]
    exact Checks.forM_ok.mpr fun reference href => checkTip_ok.mpr (htips reference href)

/-- Two indexes that repeat an object, each on its own and between them. -/
def repeating : Indexes := fun id => if id = "1" then ["a", "a", "b"] else ["b", "c"]

/-- The index of the second pack has what the first one has, apart from one object. -/
theorem indexUnion_exact_of_repeating :
    SortedUnion.firstMissing (indexUnion repeating { packs := [{ checksum := "1" },
      { checksum := "2" }] } ["1"]) (indexUnion repeating { packs := [{ checksum := "1" },
      { checksum := "2" }] } ["2"]) = none ↔
    ∀ oid, (∃ id ∈ ["1", "2"], id ∈ ["1"] ∧ oid ∈ repeating id) →
      ∃ id ∈ ["1", "2"], id ∈ ["2"] ∧ oid ∈ repeating id := by
  have hsorted : ∀ id, (repeating id).Pairwise (· ≤ ·) := by
    intro id
    unfold repeating
    split_ifs
    · decide
    · decide
  exact (indexUnion_exact hsorted
    { packs := [{ checksum := "1" }, { checksum := "2" }] }).2.1 ["1"] ["2"]

end Verify

section Seal

variable [Text.CharTables] {indexes : Indexes} {a : Attempt} {now : Timestamp}
  {seg : LogSegmentRef} {m' : Manifest} {captured : Manifest} {inputs : List String}
  {outputs : List PackRef}

/-- A verified seal keeps every object of the live packs and covers the tips it captured. -/
theorem seal_conserves (hverified : verifies indexes (.sealPacks captured inputs outputs) a)
    (h : (Job.sealPacks captured inputs outputs).manifest a now seg = .ok m') :
    (∀ oid, a.basis.manifest.Indexed indexes oid → m'.Indexed indexes oid) ∧
      ∀ reference ∈ a.basis.refs.base.refs.entries, m'.Indexed indexes reference.2 := by
  have hlive : ∀ id, id ∈ m'.checksums ↔
      id ∈ a.basis.manifest.checksums ∧ id ∉ sealRetired inputs outputs := by
    intro id
    rw [(moved_seal h).live.mem_iff, List.append_nil, List.mem_filter, decide_eq_true_eq]
  simp only [Job.manifest, Checks.bind_eq_ok] at h
  obtain ⟨updated, hsealed, h⟩ := h
  have hsame : m'.checksums = updated.checksums := by
    rw [← Except.ok.inj h]
    rfl
  simp only [verifies, hsealed] at hverified
  obtain ⟨hinputs, htips⟩ := verifyReplacementInventory_ok (Checks.isOk_iff.mp hverified)
  refine ⟨?_, fun reference href => ?_⟩
  · rintro oid ⟨id, hid, hoid⟩
    by_cases hretired : id ∈ sealRetired inputs outputs
    · -- A retired pack is an input, and its outputs stay.
      obtain ⟨hinput, -⟩ := List.mem_filter.mp hretired
      obtain ⟨id', hid', houtput, hoid'⟩ := hinputs id hid hinput oid hoid
      refine ⟨id', (hlive id').mpr ⟨hid', fun hgone => ?_⟩, hoid'⟩
      exact of_decide_eq_true (List.mem_filter.mp hgone).2 houtput
    · exact ⟨id, (hlive id).mpr ⟨hid, hretired⟩, hoid⟩
  · obtain ⟨id, -, hkept, hoid⟩ := htips reference href
    exact ⟨id, hsame ▸ hkept, hoid⟩

end Seal

def Task.verified (indexes : Indexes) (task : Task) : Bool :=
  task.phase.attempt.all (verifies indexes task.job)

namespace Cluster

section Runs

variable [Text.CharTables] (indexes : Indexes) (cfg : Config)

/-- A step of the system; an attempt goes on only if its replacement was verified. -/
def verifiedStep (s : Cluster) (d : Deed) : Option Cluster := do
  let s' ← step cfg s d
  match d with
  | .capture t _ _ _ _ =>
    if (s'.world.tasks t).all (Task.verified indexes) then some s' else none
  | _ => some s'

/-- What is claimed was verified. -/
structure Verified (s : Cluster) : Prop where
  inv : Inv cfg s.world
  tasks : ∀ t task, s.world.tasks t = some task → task.verified indexes
  claims : ∀ o ∈ s.world.claims, verifies indexes o.job o.attempt

variable {indexes cfg} {s s' : Cluster}

theorem verifiedStep_some {d : Deed} (h : verifiedStep indexes cfg s d = some s') :
    step cfg s d = some s' ∧ ∀ t policy writer startedAt lastEntryTime,
      d = .capture t policy writer startedAt lastEntryTime →
        (s'.world.tasks t).all (Task.verified indexes) := by
  obtain ⟨u, hu, h⟩ := Option.bind_eq_some_iff.mp h
  cases d with
  | capture t policy writer startedAt lastEntryTime =>
    simp only at h
    split_ifs at h with hverified
    cases h
    refine ⟨hu, fun t' _ _ _ _ heq => ?_⟩
    cases heq
    exact hverified
  | _ =>
    cases h
    exact ⟨hu, by simp⟩

theorem Verified.step {d : Deed} (h : Verified indexes cfg s)
    (hstep : verifiedStep indexes cfg s d = some s') : Verified indexes cfg s' := by
  obtain ⟨hs, hguard⟩ := verifiedStep_some hstep
  rcases step_world hs with heq | ⟨a, hw, hcapture, -⟩
  · refine ⟨heq ▸ h.inv, ?_, ?_⟩
    · rw [heq]
      exact h.tasks
    · rw [heq]
      exact h.claims
  · have hattempt : ∀ {t : ℕ} {task : Task} {b : Attempt}, s.world.tasks t = some task →
        task.phase.attempt = some b → verifies indexes task.job b := by
      intro t task b htask hb
      have hverified := h.tasks t task htask
      rwa [Task.verified, hb, Option.all_some] at hverified
    refine ⟨h.inv.step a hw, fun t task htask => ?_, fun o ho => ?_⟩
    · cases hb : task.phase.attempt with
      | none => simp [Task.verified, hb]
      | some b =>
        rcases step_attempts hw htask hb with ⟨task₀, htask₀, hjob, hb₀⟩ | ⟨rfl, -⟩
        · rw [Task.verified, hb, Option.all_some, ← hjob]
          exact hattempt htask₀ hb₀
        · obtain ⟨policy, writer, startedAt, last, -, rfl, -, -⟩ := hcapture t b rfl
          have hall := hguard t policy writer startedAt last rfl
          rwa [htask, Option.all_some] at hall
    · rcases step_claims hw ho with ho | ⟨task, htask, hjob, hb⟩
      · exact h.claims o ho
      · rw [← hjob]
        exact hattempt htask hb

/-- Whatever a replacement races with, it conserves the objects of the manifest it replaces; the
tips of that manifest are covered when no step of the run let the refs of a copy drift. -/
theorem replacement_conserves {access : Option RepoAccess} {now : Timestamp} {writer : String}
    {deeds : List Deed}
    (hrun : Runs.run (verifiedStep indexes cfg) (created (createdManifest access now writer)) deeds =
      some s) {newer older : List Generation} {g basis : Generation}
    (hgens : s.world.gens = newer ++ g :: basis :: older) {o : Origin} (ho : g.origin = some o)
    {captured : Manifest} {inputs : List String} {outputs : List PackRef}
    (hjob : o.job = .sealPacks captured inputs outputs) :
    (∀ oid, basis.manifest.Indexed indexes oid → g.manifest.Indexed indexes oid) ∧
      (Sound cfg (created (createdManifest access now writer)) deeds →
        ∀ name oid, (foldRefs .fresh (committedEntries (basis :: older))).refs.find? name =
          some oid → g.manifest.Indexed indexes oid) := by
  have h : Verified indexes cfg s := by
    refine Runs.invariant (I := Verified indexes cfg) (fun _ _ _ h _ hstep => h.step hstep) hrun
      (Runs.allSteps_true _ _) ⟨inv_created access now writer, ?_, ?_⟩
    · simp [created, World.created]
    · simp [created, World.created]
  have hsuffix : (g :: basis :: older) <:+ s.world.gens := ⟨newer, hgens.symm⟩
  have hchain := h.inv.chain.suffix hsuffix
  have hg : g ∈ s.world.gens := hsuffix.subset List.mem_cons_self
  have hbasis := hchain.basis ho
  have hverified := h.claims o (h.inv.claimed o ⟨g, hg, ho⟩)
  rw [hjob] at hverified
  have hedit : ∃ now seg, o.job.manifest o.attempt now seg = .ok g.manifest := by
    cases hchain with
    | append older o now m version basis wrote burned edit newer =>
      cases ho
      exact ⟨now, _, edit⟩
    | rewrite older job policy writer now m version edit folded newer => cases ho
  obtain ⟨now', seg, hedit⟩ := hedit
  rw [hjob] at hedit
  obtain ⟨hobjects, htips⟩ := seal_conserves hverified hedit
  rw [hbasis] at hobjects
  refine ⟨hobjects, fun hsound name oid hfind => ?_⟩
  have hplain := Runs.run_of_guarded (fun _ _ _ hd => (verifiedStep_some hd).1) hrun
  obtain ⟨-, hjudged⟩ := judgedOnto_run hsound hplain
  rw [hgens] at hjudged
  refine htips (name, oid) ?_
  rw [hjudged.suffix.2 o ho]
  exact SortedMap.find?_eq_some_iff.mp hfind

end Runs

section Seals

attribute [local instance] Text.asciiTables

/-- One write of a handle, and nothing fails. -/
def write (i t : ℕ) (nonce : String) (job : Job) : List Deed :=
  [.start i t job, .pin t, .capture t ⟨"", .empty⟩ "w" ⟨2, 0⟩ none,
    .store (.claim t nonce (fun _ => ⟨2, 0⟩) .delivered), .store (.swap t ⟨3, 0⟩ .delivered),
    .settle t none, .finish t fun _ => ⟨2, 0⟩]

/-- A push of one update with its pack. -/
def pushing (pack name old new : String) : Job :=
  .batch [{ updating name old new with pack := some ⟨pack, 0, 0, 0⟩ }]

def packed (checksum : String) : PackRef := { checksum := checksum }

def compacting (pack : String) (supersedes : List String) : Job :=
  .compact ⟨pack, 0, 0, 0, false, false, false, none⟩ supersedes 0 none

/-- One pack is replaced by another. -/
def sealing (input output : String) : Job :=
  .sealPacks { packs := [packed input] } [input] [packed output]

def runVerified (indexes : Indexes) (deeds : List Deed) : Option Cluster :=
  Runs.run (verifiedStep indexes ⟨3, List.length⟩) (created (createdManifest none ⟨1, 0⟩ "w")) deeds

/-- The newest write of a run, with the branch in the refs it was based on and the packs before
and after it. -/
def lastWrite (s : Cluster) : Option (Job × Option Oid × List String × List String) :=
  match s.world.gens with
  | g :: basis :: older => g.origin.map fun o => (o.job,
      (foldRefs .fresh (committedEntries (basis :: older))).refs.find? "refs/heads/main",
      basis.manifest.checksums, g.manifest.checksums)
  | _ => none

theorem lastWrite_some {run : Option Cluster} {job : Job} {tip : Option Oid}
    {before after : List String} (h : run.bind lastWrite = some (job, tip, before, after)) :
    ∃ s g basis older o, run = some s ∧ s.world.gens = g :: basis :: older ∧
      g.origin = some o ∧ o.job = job ∧
      (foldRefs .fresh (committedEntries (basis :: older))).refs.find? "refs/heads/main" = tip ∧
      basis.manifest.checksums = before ∧ g.manifest.checksums = after := by
  obtain ⟨s, hs, h⟩ := Option.bind_eq_some_iff.mp h
  unfold lastWrite at h
  split at h
  · rename_i g basis older hgens
    obtain ⟨o, ho, heq⟩ := Option.map_eq_some_iff.mp h
    simp only [Prod.mk.injEq] at heq
    exact ⟨s, g, basis, older, o, hs, hgens, ho, heq⟩
  · cases h

def repacked : List Deed :=
  [.openRepo 0 none] ++ write 0 1 "a" (pushing "1" "refs/heads/main" "" oidA) ++
    write 0 2 "b" (compacting "2" []) ++ write 0 3 "c" (sealing "1" "2")

def repackedIndexes : Indexes := fun id => if id = "2" then [oidA, oidB] else [oidA]

/-- The pushed pack is replaced by one that holds more. -/
theorem replacement_conserves_repacked :
    ∃ s g basis older o, runVerified repackedIndexes repacked = some s ∧
      s.world.gens = g :: basis :: older ∧ g.origin = some o ∧ o.job = sealing "1" "2" ∧
      basis.manifest.checksums = ["1", "2"] ∧ g.manifest.checksums = ["2"] ∧
      (∀ oid, basis.manifest.Indexed repackedIndexes oid →
        g.manifest.Indexed repackedIndexes oid) ∧
      ∀ name oid, (foldRefs .fresh (committedEntries (basis :: older))).refs.find? name =
        some oid → g.manifest.Indexed repackedIndexes oid := by
  have hrun : ((runVerified repackedIndexes repacked).bind lastWrite) =
      some (sealing "1" "2", some oidA, ["1", "2"], ["2"]) := by decide +kernel
  obtain ⟨s, g, basis, older, o, hs, hgens, ho, hjob, -, hbefore, hafter⟩ := lastWrite_some hrun
  have hnewest : s.world.gens = [] ++ g :: basis :: older := hgens
  obtain ⟨hobjects, htips⟩ := replacement_conserves hs hnewest ho hjob
  exact ⟨s, g, basis, older, o, hs, hgens, ho, hjob, hbefore, hafter, hobjects,
    htips (by decide)⟩

def dropped : List Deed :=
  [.openRepo 0 none] ++ write 0 1 "a" (pushing "1" "refs/heads/main" "" oidA) ++
    write 0 2 "b" (pushing "2" "HEAD" oidA oidB) ++ write 0 3 "c" (compacting "3" ["1", "2"]) ++
    write 0 4 "d" (compacting "4" []) ++ write 0 5 "e" (sealing "3" "4")

def droppedIndexes : Indexes := fun id => if id = "1" then [oidA] else [oidB]

/-- The copy follows HEAD and the log does not: a compaction of what the copy reaches drops the
tip in the log, and no check of the seal looks for it. -/
theorem replacement_uncovered_dropped :
    ∃ s g basis older o, runVerified droppedIndexes dropped = some s ∧
      s.world.gens = g :: basis :: older ∧ g.origin = some o ∧ o.job = sealing "3" "4" ∧
      (foldRefs .fresh (committedEntries (basis :: older))).refs.find? "refs/heads/main" =
        some oidA ∧ ¬ g.manifest.Indexed droppedIndexes oidA := by
  have hrun : ((runVerified droppedIndexes dropped).bind lastWrite) =
      some (sealing "3" "4", some oidA, ["3", "4"], ["4"]) := by decide +kernel
  obtain ⟨s, g, basis, older, o, hs, hgens, ho, hjob, htip, -, hafter⟩ := lastWrite_some hrun
  refine ⟨s, g, basis, older, o, hs, hgens, ho, hjob, htip, ?_⟩
  rintro ⟨id, hid, hoid⟩
  rw [hafter, List.mem_singleton] at hid
  subst hid
  revert hoid
  decide

end Seals

end Cluster

end Walgit
