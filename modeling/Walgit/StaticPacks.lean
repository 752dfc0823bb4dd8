import Walgit.PackfileUri

/-!
# What the static packs of a clone hold

A selection offers, with each group, the groups it subtracts. Its certificates are of one
snapshot, so what one of them leaves out another one holds.
-/
namespace Walgit

open Text

/-- The object is in one of the packs offered. -/
def Selection.Holds (contents : Oid → Oid → Prop) (selection : Selection) (o : Oid) : Prop :=
  ∃ p ∈ selection.packs, contents p.checksum o

/-- What the filter of a request lets through. -/
def UploadPackRequest.Keeps (db : Odb) (request : UploadPackRequest) (o : Oid) : Prop :=
  request.filter = some "blob:none" → db.find o ≠ some .blob

/-- What a pack made for the request holds: what the wants reach beyond the haves. -/
def UploadPackRequest.Dynamic (db : Odb) (request : UploadPackRequest) (o : Oid) : Prop :=
  db.Reached request.wants o ∧ request.Keeps db o ∧ ¬db.Reached request.haves o

theorem UploadPackRequest.mem_addRoots {request : UploadPackRequest} {selection : Selection}
    {o : Oid} : o ∈ (request.addRoots selection).haves ↔
      o ∈ request.haves ∨ o ∈ selection.roots := by
  have hfold : ∀ (roots haves : List Oid), o ∈ roots.foldl
      (fun haves root => if haves.contains root then haves else haves ++ [root]) haves ↔
        o ∈ haves ∨ o ∈ roots := by
    intro roots
    induction roots with
    | nil => simp
    | cons root roots ih =>
      intro haves
      rw [List.foldl_cons, ih, List.mem_cons]
      split_ifs with hmem
      · rw [List.contains_iff_mem] at hmem
        constructor
        · rintro (h | h)
          · exact Or.inl h
          · exact Or.inr (Or.inr h)
        · rintro (h | rfl | h)
          · exact Or.inl h
          · exact Or.inl hmem
          · exact Or.inr h
      · rw [List.mem_append, List.mem_singleton, or_assoc]
  exact hfold selection.roots request.haves

namespace FetchView

variable {view : FetchView} {policy key : String} {seq : ℕ}

/-- A certificate that is used is one of the manifest, of the policy and the generation. -/
theorem proofs_ok {proofs : SortedMap String PackGroupCoverage}
    (h : view.proofs policy key seq = some proofs) {group : String} {proof : PackGroupCoverage}
    (hproof : proofs.find? group = some proof) : proof.group = group ∧
      proof ∈ view.manifest.certificates ∧ proof.refPolicy = policy ∧ proof.coversSeq = seq ∧
      proof.refsKey = key := by
  refine Checks.foldlM_some (I := fun m => ∀ group proof, m.find? group = some proof →
    proof.group = group ∧ proof ∈ view.manifest.certificates ∧ proof.refPolicy = policy ∧
      proof.coversSeq = seq ∧ proof.refsKey = key) ?_ (by simp) h group proof hproof
  rintro m ⟨carrier, added⟩ hmem m' hm hadd name c hc
  obtain ⟨pack, hpack, hcarried⟩ := List.mem_flatMap.mp hmem
  obtain ⟨c', hc', heq⟩ := List.mem_map.mp hcarried
  cases heq
  simp only [addProof] at hadd
  split_ifs at hadd with hother
  · cases hadd
    exact hm name c hc
  · cases hadd
    rw [SortedMap.find?_insert] at hc
    split_ifs at hc with hname
    · cases hc
      simp only [Bool.or_eq_true, decide_eq_true_eq, not_or, not_not] at hother
      exact ⟨hname.symm, List.mem_flatMap.mpr ⟨_, hpack, hc'⟩, hother.2, hother.1.2, hother.1.1⟩
    · exact hm name c hc

/-- All members of a certified group are offered, those apart that a filter drops. -/
theorem members_ok {filter : Option String} {proofs : SortedMap String PackGroupCoverage}
    {group : String} {ids : List String}
    (h : view.members policy key seq filter proofs group = some ids) :
    ∃ proof, proofs.find? group = some proof ∧ ∀ id ∈ proof.packs, id ∈ ids ∨
      (filter = some "blob:none" ∧ ∃ p ∈ view.manifest.packs, p.checksum = id ∧
        p.kind = .blobs) := by
  obtain ⟨proof, hproof, h⟩ := Option.bind_eq_some_iff.mp h
  refine ⟨proof, hproof, fun id hid => ?_⟩
  obtain ⟨-, h⟩ := Option.ite_none_left_eq_some.mp h
  obtain ⟨offered, hoffered, h⟩ := Option.bind_eq_some_iff.mp h
  cases h
  obtain ⟨those, hmem, hone⟩ := (Checks.mapM_some hoffered).1 id hid
  obtain ⟨pack, hlive, hone⟩ := Option.bind_eq_some_iff.mp hone
  obtain ⟨hpack, hchecksum⟩ := Manifest.live_eq_some hlive
  split_ifs at hone with hscope hfilter
  · cases hkind : pack.kind with
    | objects =>
      rw [hkind] at hone
      cases hone
    | history =>
      rw [hkind] at hone
      cases hone
      exact Or.inl (List.mem_flatten.mpr ⟨_, hmem, List.mem_cons_self⟩)
    | blobs => exact Or.inr ⟨hfilter, pack, hpack, hchecksum, hkind⟩
  · cases hone
    exact Or.inl (List.mem_flatten.mpr ⟨_, hmem, List.mem_cons_self⟩)

theorem mem_ordered {ids : List String} {id : String} : id ∈ view.ordered ids ↔ id ∈ ids :=
  (List.perm_insertionSort _ ids).mem_iff

/-- A synthetic root is a branch of a group that is offered. -/
theorem syntheticRoots_ok {snapshot : RefSnapshot} {groups : List String} {roots : List Oid}
    (h : view.syntheticRoots snapshot groups = some roots) : ∀ root ∈ roots,
      ∃ name ∈ groups, ∃ group, view.config.packfiles.find? name = some group ∧
        root ∈ (group.roots snapshot).filterMap fromHex := by
  intro root hroot
  obtain ⟨oids, hoids, rfl⟩ := Option.map_eq_some_iff.mp h
  rw [SortedMap.mem_keys, SortedMap.isSome_setOf] at hroot
  obtain ⟨r, hr, hparse⟩ := (Checks.mapM_some hoids).2 root hroot
  obtain ⟨hr, hbranch⟩ := List.mem_filter.mp hr
  simp only [Bool.and_eq_true, List.any_eq_true, Option.any_eq_true] at hbranch
  obtain ⟨-, name, hname, group, hgroup, hmatches⟩ := hbranch
  refine ⟨name, hname, group, hgroup, List.mem_filterMap.mpr ⟨r.oid, ?_, hparse⟩⟩
  rw [PackGroupConfig.roots, SortedMap.mem_keys, SortedMap.isSome_setOf]
  exact List.mem_map_of_mem (List.mem_filter.mpr ⟨hr, hmatches⟩)

variable {db : Odb} {contents : Oid → Oid → Prop} {digest : List String → String}
  {request : UploadPackRequest} {snapshot : RefSnapshot} {baseUrl : String} {sel : Selection}

/-- What a selection consists of: groups closed under subtraction, whose members are all offered
except for what the filter drops. -/
theorem selectSnapshot_ok
    (h : view.selectSnapshot digest request snapshot seq key baseUrl = some sel) :
    ∃ groups proofs, view.proofs (view.config.policyIdentity digest) key seq = some proofs ∧
      view.syntheticRoots snapshot groups = some sel.roots ∧
      (∀ name ∈ groups, ∃ group, view.config.packfiles.find? name = some group ∧
        group.subtract ⊆ groups) ∧
      ∀ name ∈ groups, ∃ proof, proofs.find? name = some proof ∧ ∀ id ∈ proof.packs,
        (∀ pack, fromHex id = some pack → ∃ p ∈ sel.packs, p.checksum = pack) ∨
          (request.filter = some "blob:none" ∧ ∃ p ∈ view.manifest.packs, p.checksum = id ∧
            p.kind = .blobs) := by
  obtain ⟨proofs, hproofs, h⟩ := Option.bind_eq_some_iff.mp h
  obtain ⟨-, h⟩ := Option.ite_none_left_eq_some.mp h
  obtain ⟨groups, hgroups, h⟩ := Option.bind_eq_some_iff.mp h
  obtain ⟨members, hmembers, h⟩ := Option.bind_eq_some_iff.mp h
  obtain ⟨-, h⟩ := Option.ite_none_left_eq_some.mp h
  obtain ⟨roots, hroots, h⟩ := Option.bind_eq_some_iff.mp h
  obtain ⟨-, h⟩ := Option.ite_none_left_eq_some.mp h
  obtain ⟨packs, hpacks, h⟩ := Option.bind_eq_some_iff.mp h
  cases h
  obtain ⟨-, hclosed⟩ := RefsConfig.required_ok (Checks.toOption_eq_some.mp hgroups)
  refine ⟨groups, proofs, hproofs, hroots, fun name hname => ?_, fun name hname => ?_⟩
  · obtain ⟨group, hgroup, -, hsub⟩ := hclosed name hname
    exact ⟨group, hgroup, hsub⟩
  · obtain ⟨ids, hids, hone⟩ := (Checks.mapM_some hmembers).1 name hname
    obtain ⟨proof, hproof, hall⟩ := members_ok hone
    refine ⟨proof, hproof, fun id hid => (hall id hid).imp_left fun hoffered pack hparse => ?_⟩
    have hselected : id ∈ (SortedMap.setOf members.flatten).keys := by
      rw [SortedMap.mem_keys, SortedMap.isSome_setOf]
      exact List.mem_flatten.mpr ⟨ids, hids, hoffered⟩
    obtain ⟨p, hp, huri⟩ := (Checks.mapM_some hpacks).1 id (mem_ordered.mpr hselected)
    rw [hparse] at huri
    cases huri
    exact ⟨_, hp, rfl⟩

variable [CharTables]

/-- Whatever the roots of a group reach is offered with the group: by induction over the groups,
what its certificate leaves out is held for a group it subtracts. -/
theorem groups_hold {groups : List String} {proofs : SortedMap String PackGroupCoverage}
    (hexact : ∀ group proof, proofs.find? group = some proof →
      proof.group = group ∧ proof.Exact db contents view.config snapshot)
    (hclosed : ∀ name ∈ groups, ∃ group, view.config.packfiles.find? name = some group ∧
      group.subtract ⊆ groups)
    (hmembers : ∀ name ∈ groups, ∃ proof, proofs.find? name = some proof ∧
      ∀ id ∈ proof.packs, ∀ pack, fromHex id = some pack → ∀ o, contents pack o →
        request.Keeps db o → sel.Holds contents o) :
    ∀ name ∈ groups, ∀ group, view.config.packfiles.find? name = some group → ∀ o,
      db.Reached ((group.roots snapshot).filterMap fromHex) o → request.Keeps db o →
        sel.Holds contents o := by
  intro name hname
  obtain ⟨proof, hproof, -⟩ := hmembers name hname
  obtain ⟨hvalid, -⟩ := (hexact name proof hproof).2.covers
  obtain ⟨order, hordered, hkeys⟩ := RefsConfig.validate_ordered hvalid
  have hmem : ∀ name ∈ groups, name ∈ order := by
    intro name hname
    obtain ⟨group, hgroup, -⟩ := hclosed name hname
    exact hkeys (SortedMap.mem_keys.mpr (by rw [hgroup]; rfl))
  refine hordered.forall_mem (P := fun name => name ∈ groups → ∀ group,
    view.config.packfiles.find? name = some group → ∀ o,
      db.Reached ((group.roots snapshot).filterMap fromHex) o → request.Keeps db o →
        sel.Holds contents o) ?_ name (hmem name hname) hname
  intro name ih hname group hgroup o hreach hkeeps
  obtain ⟨proof, hproof, hheld⟩ := hmembers name hname
  obtain ⟨hsame, hcertified⟩ := hexact name proof hproof
  obtain ⟨-, group', hgroup', hcovers⟩ := hcertified.covers
  rw [hsame, hgroup, Option.some.injEq] at hgroup'
  rw [← hgroup'] at hcovers
  rcases hcovers o hreach with ⟨id, hid, pack, hparse, hin⟩ | ⟨dep, hdep, target, htarget, hdeep⟩
  · exact hheld id hid pack hparse o hin hkeeps
  · have hneeded : dep ∈ RefsConfig.dependencies view.config.packfiles name := by
      rw [RefsConfig.dependencies, hgroup]
      exact hdep
    obtain ⟨g, hg, hsub⟩ := hclosed name hname
    rw [hgroup, Option.some.injEq] at hg
    exact ih dep hneeded (hsub (hg ▸ hdep)) target htarget o hdeep hkeeps

/-- The packs of a selection hold all that its synthetic roots reach and the filter lets through.
With what the wants reach beyond the haves and these roots, the client has everything its wants
reach. -/
theorem selectSnapshot_complete
    (hexact : ∀ proof ∈ view.manifest.certificates,
      proof.refPolicy = view.config.policyIdentity digest → proof.coversSeq = seq →
        proof.refsKey = key → proof.Exact db contents view.config snapshot)
    (hkinds : request.filter = some "blob:none" → ∀ p ∈ view.manifest.packs, p.kind = .blobs →
      ∀ pack, fromHex p.checksum = some pack → ∀ o, contents pack o → db.find o = some .blob)
    (h : view.selectSnapshot digest request snapshot seq key baseUrl = some sel) :
    (∀ root ∈ sel.roots, ∀ o, db.Reaches root o → request.Keeps db o → sel.Holds contents o) ∧
      ∀ o, db.Reached request.wants o → request.Keeps db o →
        sel.Holds contents o ∨ (request.addRoots sel).Dynamic db o ∨
          db.Reached request.haves o := by
  obtain ⟨groups, proofs, hproofs, hroots, hclosed, hmembers⟩ := selectSnapshot_ok h
  have hproper : ∀ group proof, proofs.find? group = some proof →
      proof.group = group ∧ proof.Exact db contents view.config snapshot := by
    intro group proof hproof
    obtain ⟨hgroup, hmem, hpolicy, hseq, hkey⟩ := proofs_ok hproofs hproof
    exact ⟨hgroup, hexact proof hmem hpolicy hseq hkey⟩
  have hheld := groups_hold hproper hclosed fun name hname => by
    obtain ⟨proof, hproof, hall⟩ := hmembers name hname
    refine ⟨proof, hproof, fun id hid pack hparse o hin hkeeps => ?_⟩
    rcases hall id hid with hoffered | ⟨hfilter, p, hp, hchecksum, hkind⟩
    · obtain ⟨uri, huri, hsame⟩ := hoffered pack hparse
      exact ⟨uri, huri, hsame ▸ hin⟩
    · exact absurd (hkinds hfilter p hp hkind pack (hchecksum ▸ hparse) o hin) (hkeeps hfilter)
  have hstatic : ∀ root ∈ sel.roots, ∀ o, db.Reaches root o → request.Keeps db o →
      sel.Holds contents o := by
    intro root hroot o hreach hkeeps
    obtain ⟨name, hname, group, hgroup, hmem⟩ := syntheticRoots_ok hroots root hroot
    exact hheld name hname group hgroup o ⟨root, hmem, hreach⟩ hkeeps
  refine ⟨hstatic, fun o hwant hkeeps => ?_⟩
  by_cases hhad : db.Reached (request.addRoots sel).haves o
  · obtain ⟨tip, htip, hreach⟩ := hhad
    rcases UploadPackRequest.mem_addRoots.mp htip with hreal | hroot
    · exact Or.inr (Or.inr ⟨tip, hreal, hreach⟩)
    · exact Or.inl (hstatic tip hroot o hreach hkeeps)
  · exact Or.inr (Or.inl ⟨hwant, hkeeps, hhad⟩)

end FetchView

section Offer

attribute [local instance] asciiTables

/-- Two branches; the second one has a commit and a file more. -/
def forked : Odb := ⟨[
  (repeated 'a', .commit (repeated 'b') []),
  (repeated 'b', .tree [⟨.blob, "f", repeated 'c'⟩]),
  (repeated 'c', .blob),
  (repeated 'd', .commit (repeated 'e') [repeated 'a']),
  (repeated 'e', .tree [⟨.blob, "f", repeated 'c'⟩, ⟨.blob, "g", repeated 'f'⟩]),
  (repeated 'f', .blob)]⟩

/-- The packs of the main branch, and those of what the other branch adds. -/
def packed (pack : Oid) : List Oid :=
  if pack = repeated '1' then [repeated 'a', repeated 'b']
  else if pack = repeated '2' then [repeated 'c']
  else if pack = repeated '3' then [repeated 'd', repeated 'e']
  else if pack = repeated '4' then [repeated 'f']
  else []

def forkedRefs : List (String × Oid) :=
  [("refs/heads/main", repeated 'a'), ("refs/heads/topic", repeated 'd')]

def forkedSnapshot : RefSnapshot :=
  ⟨"sha1", "refs/heads/main", forkedRefs.map fun r => ⟨r.1, r.2, ""⟩⟩

def forkedConfig : RefsConfig where
  advertise := ["refs/heads/*"]
  packfiles := .ofList [("main", ⟨.code, ["HEAD"], []⟩), ("topics", ⟨.code, ["refs/heads/*"], ["main"]⟩)]

def forkedView : FetchView :=
  let proof (group : String) (packs : List String) : PackGroupCoverage :=
    ⟨group, "policy", 2, packs, "snapshot"⟩
  let pack (id group : String) (kind : PackKind) (proofs : List PackGroupCoverage) : PackRef :=
    { checksum := id, packSize := 100, kind, coversSeq := 2, audience := .code,
      refPolicy := "policy", packGroups := [group], groupCoverages := proofs,
      coverageRefsKey := "snapshot" }
  { manifest := { packs := [
      pack (repeated '1') "main" .history [proof "main" [repeated '1', repeated '2']],
      pack (repeated '2') "main" .blobs [],
      pack (repeated '3') "topics" .history [proof "topics" [repeated '3', repeated '4']],
      pack (repeated '4') "topics" .blobs []] }
    refs := ⟨.ofList forkedRefs, "refs/heads/main"⟩
    config := forkedConfig
    maxUrisPerFetch := 8
    uriMinBytes := 10 }

/-- A clone without blobs. -/
def cloneTopic : UploadPackRequest :=
  { wants := [repeated 'd'], haves := [], filter := some "blob:none" }

/-- A clone of the second branch is offered the packs of both groups, without those of blobs. -/
theorem selectSnapshot_complete_forked :
    ∃ sel, forkedView.selectSnapshot (fun _ => "policy") cloneTopic forkedSnapshot 2 "snapshot"
        "https://h/o/r" = some sel ∧
      sel.packs.map PackfileUri.checksum = [repeated '1', repeated '3'] ∧
      sel.roots = [repeated 'a', repeated 'd'] ∧
      (∀ root ∈ sel.roots, ∀ o, forked.Reaches root o → cloneTopic.Keeps forked o →
        sel.Holds (fun pack o => o ∈ packed pack) o) ∧
      ∀ o, forked.Reached cloneTopic.wants o → cloneTopic.Keeps forked o →
        sel.Holds (fun pack o => o ∈ packed pack) o ∨ (cloneTopic.addRoots sel).Dynamic forked o ∨
          forked.Reached cloneTopic.haves o := by
  have hrun : (forkedView.selectSnapshot (fun _ => "policy") cloneTopic forkedSnapshot 2 "snapshot"
      "https://h/o/r").map (fun sel => (sel.packs.map PackfileUri.checksum, sel.roots)) =
      some ([repeated '1', repeated '3'], [repeated 'a', repeated 'd']) := by decide +kernel
  obtain ⟨sel, hsel, heq⟩ := Option.map_eq_some_iff.mp hrun
  obtain ⟨hpacks, hroots⟩ := Prod.mk.inj heq
  have hmain : PackGroupCoverage.Exact forked (fun pack o => o ∈ packed pack) forkedConfig
      forkedSnapshot ⟨"main", "policy", 2, [repeated '1', repeated '2'], "snapshot"⟩ :=
    PackGroupCoverage.exact_of_closure ⟨.code, [repeated 'a'], [], []⟩
      (by decide +kernel) (by decide)
  have htopics : PackGroupCoverage.Exact forked (fun pack o => o ∈ packed pack) forkedConfig
      forkedSnapshot ⟨"topics", "policy", 2, [repeated '3', repeated '4'], "snapshot"⟩ :=
    PackGroupCoverage.exact_of_closure
      ⟨.code, [repeated 'a', repeated 'd'], [repeated 'a'], ["main"]⟩
      (by decide +kernel) (by decide +kernel)
  refine ⟨sel, hsel, hpacks, hroots, FetchView.selectSnapshot_complete ?_ ?_ hsel⟩
  · intro proof hproof _ _ _
    have hcases : proof = ⟨"main", "policy", 2, [repeated '1', repeated '2'], "snapshot"⟩ ∨
        proof = ⟨"topics", "policy", 2, [repeated '3', repeated '4'], "snapshot"⟩ := by
      simpa [Manifest.certificates, forkedView] using hproof
    rcases hcases with rfl | rfl
    · exact hmain
    · exact htopics
  · have hblobs : ∀ p ∈ forkedView.manifest.packs, p.kind = .blobs →
        ∀ pack ∈ fromHex p.checksum, ∀ o ∈ packed pack, forked.find o = some .blob := by
      decide +kernel
    exact fun _ p hp hkind pack hpack o ho => hblobs p hp hkind pack hpack o ho

end Offer

end Walgit
