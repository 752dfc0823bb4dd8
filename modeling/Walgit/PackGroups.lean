import Walgit.Objects
import Walgit.Packs
import Walgit.RefsConfig

/-!
# The roots of pack groups

Which objects a pack group packages at a ref snapshot: what its refs reach, without what the
groups it subtracts reach. A coverage certificate says that its packs hold exactly that.
-/
namespace Walgit

open Text

/-- `ObjectId::from_hex`. -/
def fromHex (hex : String) : Option Oid :=
  if (hex.utf8ByteSize = 40 || hex.utf8ByteSize = 64) && hex.toList.all isAsciiHexDigit then
    some (toAsciiLowercase hex)
  else none

structure GroupRoots where
  kind : PackGroupKind
  included : List String
  /-- The roots of what the group subtracts, before its own subtraction. -/
  excluded : List String
  /-- All groups needed when this one is delivered. -/
  dependencies : List String
  deriving DecidableEq, Repr

inductive GroupError where
  | invalid (message : String)
  /-- `from_hex` refuses the text. -/
  | oid (hex : String)
  deriving DecidableEq, Repr

/-- The oids of the refs a group packages. -/
def PackGroupConfig.roots (group : PackGroupConfig) (snapshot : RefSnapshot) : List String :=
  (SortedMap.setOf ((snapshot.refs.filter fun r =>
    group.matchesRef r.name snapshot.headTarget).map Ref.oid)).keys

namespace RefsConfig

/-- What `policy_identity` digests: every group with its selectors and what it subtracts. -/
def policyFields (cfg : RefsConfig) : List String :=
  ["walgit-pack-policy-v1", toString cfg.packfiles.entries.length] ++
    cfg.packfiles.entries.flatMap fun g =>
      let deps := (SortedMap.setOf g.2.subtract).keys
      [g.1, match g.2.kind with | .code => "code" | .metadata => "meta",
        toString g.2.included.length] ++ g.2.included ++ [toString deps.length] ++ deps

/-- The digest is a parameter; the fields are framed by their lengths. -/
def policyIdentity (digest : List String → String) (cfg : RefsConfig) : String :=
  digest cfg.policyFields

/-- Every name a search through the groups can meet. -/
def groupNames (groups : SortedMap String PackGroupConfig) : List String :=
  groups.keys ++ groups.values.flatMap PackGroupConfig.subtract

/-- A group of a search, which must be there and be admitted, and what it subtracts. -/
def visitGroup (groups : SortedMap String PackGroupConfig) (admits : PackGroupConfig → Bool)
    (_ : Unit) (name : String) : Except String (Unit × List String) :=
  match groups.find? name with
  | none => .error ("missing group " ++ name)
  | some group =>
    if admits group then .ok ((), group.subtract) else .error ("refused group " ++ name)

def walkGroups (groups : SortedMap String PackGroupConfig) (admits : PackGroupConfig → Bool)
    (names : List String) : Option (Except String (List String × Unit)) :=
  Worklist.walk id (visitGroup groups admits)
    (Worklist.searchFuel (names ++ groupNames groups) (groupNames groups).length names)
    ([], ()) names

/-- The groups that are needed with some groups, these included. -/
def required (groups : SortedMap String PackGroupConfig) (admits : PackGroupConfig → Bool)
    (names : List String) : Except String (List String) :=
  match walkGroups groups admits names with
  | some r => r.map Prod.fst
  | none => .error "the search did not end"

section Resolve

variable [CharTables]

/-- The loop over the refs; `names` are those seen so far. -/
def checkRefs : List String → List Ref → Except GroupError Unit
  | _, [] => .ok ()
  | names, r :: refs => do
    (validateRefName r.name).mapError .invalid
    if r.name = "HEAD" || r.name ∈ names then
      throw (.invalid "duplicate or symbolic ref in snapshot")
    match fromHex r.oid with
    | none => throw (.oid r.oid)
    | some oid => if isNullOid oid then throw (.invalid "null ref target in snapshot")
    checkRefs (r.name :: names) refs

/-- One group of `resolve_groups`. Only direct dependencies define what is excluded. -/
def resolveGroup (cfg : RefsConfig) (snapshot : RefSnapshot) (group : PackGroupConfig) :
    Except GroupError GroupRoots := do
  let dependencies ← (required cfg.packfiles (fun _ => true) group.subtract).mapError .invalid
  let excluded := group.subtract.flatMap fun dependency =>
    ((cfg.packfiles.find? dependency).map fun target => target.roots snapshot).getD []
  pure ⟨group.kind, group.roots snapshot, (SortedMap.setOf excluded).keys,
    (SortedMap.setOf dependencies).keys⟩

def resolveGroups (cfg : RefsConfig) (snapshot : RefSnapshot) :
    Except GroupError (SortedMap String GroupRoots) := do
  cfg.validate.mapError .invalid
  checkRefs [] snapshot.refs
  cfg.packfiles.entries.foldlM (fun result g => do
    let roots ← resolveGroup cfg snapshot g.2
    pure (result.insert g.1 roots)) .empty

end Resolve

end RefsConfig

/-- What the packs of a certificate hold is what the roots of its group reach without what the
roots of the groups it subtracts reach; `contents` is what a pack holds. -/
def PackGroupCoverage.Exact [CharTables] (db : Odb) (contents : Oid → Oid → Prop)
    (cfg : RefsConfig) (snapshot : RefSnapshot) (proof : PackGroupCoverage) : Prop :=
  ∃ groups roots, cfg.resolveGroups snapshot = .ok groups ∧
    groups.find? proof.group = some roots ∧
    ∀ o, (∃ id ∈ proof.packs, ∃ pack, fromHex id = some pack ∧ contents pack o) ↔
      db.Reached (roots.included.filterMap fromHex) o ∧
        ¬db.Reached (roots.excluded.filterMap fromHex) o

namespace RefsConfig

/-- The search always ends. -/
theorem walkGroups_isSome (groups : SortedMap String PackGroupConfig)
    (admits : PackGroupConfig → Bool) (names : List String) :
    (walkGroups groups admits names).isSome := by
  have hclosed : ∀ s name t more, visitGroup groups admits s name = .ok (t, more) →
      (∀ n ∈ more, n ∈ names ++ groupNames groups) ∧
        more.length ≤ (groupNames groups).length := by
    intro s name t more hvisit
    unfold visitGroup at hvisit
    split at hvisit
    · cases hvisit
    · rename_i group hgroup
      split_ifs at hvisit
      cases hvisit
      have hvalue : group ∈ groups.values := SortedMap.mem_values.mpr ⟨name, hgroup⟩
      have hsub : group.subtract.Sublist (groupNames groups) := by
        rw [groupNames, List.flatMap_def]
        exact (List.sublist_flatten_of_mem (List.mem_map_of_mem hvalue)).trans
          (List.sublist_append_right _ _)
      exact ⟨fun dep hdep => List.mem_append_right _ (hsub.subset hdep), hsub.length_le⟩
  refine Worklist.walk_isSome hclosed (fun name hname => List.mem_append_left _ hname) ?_
  simp [Worklist.fresh, Worklist.searchFuel]

/-- The search finds all it starts from, and with each group all that it subtracts; every group
found is there and admitted. -/
theorem required_ok {groups : SortedMap String PackGroupConfig}
    {admits : PackGroupConfig → Bool} {names found : List String}
    (h : required groups admits names = .ok found) :
    names ⊆ found ∧ ∀ name ∈ found, ∃ group, groups.find? name = some group ∧
      admits group = true ∧ group.subtract ⊆ found := by
  unfold required at h
  split at h
  · rename_i r hwalk
    cases r with
    | error e => cases h
    | ok s =>
      cases h
      refine ⟨(Worklist.walk_sound hwalk).2.1, fun name hname => ?_⟩
      rcases Worklist.walk_closed hwalk name hname with hnil | ⟨i, t, t', more, rfl, hvisit, hmore⟩
      · cases hnil
      · unfold visitGroup at hvisit
        split at hvisit
        · cases hvisit
        · rename_i group hgroup
          split_ifs at hvisit with hadmits
          cases hvisit
          exact ⟨group, hgroup, hadmits, hmore⟩
  · cases h

section Resolve

variable {cfg : RefsConfig} {snapshot : RefSnapshot}

theorem resolveGroup_ok {group : PackGroupConfig} {roots : GroupRoots}
    (h : resolveGroup cfg snapshot group = .ok roots) :
    roots.included = group.roots snapshot ∧ ∀ id, id ∈ roots.excluded ↔
      ∃ dep ∈ group.subtract, ∃ target, cfg.packfiles.find? dep = some target ∧
        id ∈ target.roots snapshot := by
  obtain ⟨dependencies, -, h⟩ := Checks.bind_eq_ok.mp h
  cases h
  refine ⟨rfl, fun id => ?_⟩
  rw [SortedMap.mem_keys, SortedMap.isSome_setOf, List.mem_flatMap]
  refine exists_congr fun dep => and_congr_right fun _ => ?_
  cases cfg.packfiles.find? dep <;> simp

/-- A group needs no other exactly if it subtracts none. -/
theorem resolveGroup_scope {group : PackGroupConfig} {roots : GroupRoots}
    (h : resolveGroup cfg snapshot group = .ok roots) :
    roots.kind = group.kind ∧ (roots.dependencies = [] ↔ group.subtract = []) := by
  obtain ⟨dependencies, hdeps, h⟩ := Checks.bind_eq_ok.mp h
  cases h
  have hfound : required cfg.packfiles (fun _ => true) group.subtract = .ok dependencies := by
    cases hr : required cfg.packfiles (fun _ => true) group.subtract with
    | error e => simp [hr, Except.mapError] at hdeps
    | ok found => simpa [hr, Except.mapError] using hdeps
  have hkeys : (SortedMap.setOf dependencies).keys = [] ↔ dependencies = [] := by
    simp only [List.eq_nil_iff_forall_not_mem, SortedMap.mem_keys, SortedMap.isSome_setOf]
  refine ⟨rfl, hkeys.trans ⟨fun hnil => ?_, fun hnil => ?_⟩⟩
  · exact List.subset_nil.mp (hnil ▸ (required_ok hfound).1)
  · rw [hnil] at hfound
    simpa [required, walkGroups, Worklist.walk, Except.map] using hfound.symm

theorem resolveEach_ok {entries : List (String × PackGroupConfig)}
    {result groups : SortedMap String GroupRoots}
    (h : entries.foldlM (fun result g => do
      let roots ← resolveGroup cfg snapshot g.2
      pure (result.insert g.1 roots)) result = .ok groups) {name : String} {roots : GroupRoots}
    (hroots : groups.find? name = some roots) : result.find? name = some roots ∨
      ∃ group, (name, group) ∈ entries ∧ resolveGroup cfg snapshot group = .ok roots := by
  induction entries generalizing result with
  | nil =>
    cases h
    exact Or.inl hroots
  | cons g entries ih =>
    rw [List.foldlM_cons, Checks.bind_eq_ok] at h
    obtain ⟨next, hnext, hrest⟩ := h
    obtain ⟨first, hfirst, hinsert⟩ := Checks.bind_eq_ok.mp hnext
    cases hinsert
    rcases ih hrest with hold | ⟨group, hmem, hok⟩
    · rw [SortedMap.find?_insert] at hold
      split_ifs at hold with hname
      · cases hold
        exact Or.inr ⟨g.2, hname ▸ List.mem_cons_self, hfirst⟩
      · exact Or.inl hold
    · exact Or.inr ⟨group, List.mem_cons_of_mem g hmem, hok⟩

theorem resolveGroups_validate [CharTables] {groups : SortedMap String GroupRoots}
    (h : cfg.resolveGroups snapshot = .ok groups) : cfg.validate = .ok () := by
  obtain ⟨_, hvalid, -⟩ := Checks.bind_eq_ok.mp h
  cases hcfg : cfg.validate with
  | error e => simp [hcfg, Except.mapError] at hvalid
  | ok u => rfl

/-- A group that is resolved is a configured one. -/
theorem resolveGroups_group [CharTables] {groups : SortedMap String GroupRoots}
    (h : cfg.resolveGroups snapshot = .ok groups) {name : String} {roots : GroupRoots}
    (hroots : groups.find? name = some roots) : ∃ group,
      cfg.packfiles.find? name = some group ∧ resolveGroup cfg snapshot group = .ok roots := by
  obtain ⟨_, -, h⟩ := Checks.bind_eq_ok.mp h
  obtain ⟨_, -, h⟩ := Checks.bind_eq_ok.mp h
  rcases resolveEach_ok h hroots with hnone | ⟨group, hmem, hok⟩
  · cases hnone
  · exact ⟨group, SortedMap.find?_eq_some_of_mem hmem, hok⟩

/-- What is resolved of a group; the configuration is then a validated one. -/
theorem resolveGroups_ok [CharTables] {groups : SortedMap String GroupRoots}
    (h : cfg.resolveGroups snapshot = .ok groups) {name : String} {roots : GroupRoots}
    (hroots : groups.find? name = some roots) : cfg.validate = .ok () ∧
      ∃ group, cfg.packfiles.find? name = some group ∧ roots.included = group.roots snapshot ∧
        ∀ id, id ∈ roots.excluded ↔ ∃ dep ∈ group.subtract, ∃ target,
          cfg.packfiles.find? dep = some target ∧ id ∈ target.roots snapshot := by
  obtain ⟨group, hgroup, hok⟩ := resolveGroups_group h hroots
  exact ⟨resolveGroups_validate h, group, hgroup, resolveGroup_ok hok⟩

end Resolve

end RefsConfig

/-- Everything a certified group reaches is in its packs or reached by a group it subtracts. -/
theorem PackGroupCoverage.Exact.covers [CharTables] {db : Odb} {contents : Oid → Oid → Prop}
    {cfg : RefsConfig} {snapshot : RefSnapshot} {proof : PackGroupCoverage}
    (h : proof.Exact db contents cfg snapshot) : cfg.validate = .ok () ∧
      ∃ group, cfg.packfiles.find? proof.group = some group ∧
        ∀ o, db.Reached ((group.roots snapshot).filterMap fromHex) o →
          (∃ id ∈ proof.packs, ∃ pack, fromHex id = some pack ∧ contents pack o) ∨
            ∃ dep ∈ group.subtract, ∃ target, cfg.packfiles.find? dep = some target ∧
              db.Reached ((target.roots snapshot).filterMap fromHex) o := by
  obtain ⟨groups, roots, hresolve, hroots, hexact⟩ := h
  obtain ⟨hvalid, group, hgroup, hincluded, hexcluded⟩ :=
    RefsConfig.resolveGroups_ok hresolve hroots
  refine ⟨hvalid, group, hgroup, fun o ho => ?_⟩
  by_cases hout : db.Reached (roots.excluded.filterMap fromHex) o
  · obtain ⟨root, hroot, hreach⟩ := hout
    obtain ⟨id, hid, hparse⟩ := List.mem_filterMap.mp hroot
    obtain ⟨dep, hdep, target, htarget, hmem⟩ := (hexcluded id).mp hid
    exact Or.inr ⟨dep, hdep, target, htarget, root, List.mem_filterMap.mpr ⟨id, hmem, hparse⟩,
      hreach⟩
  · rw [← hincluded] at ho
    exact Or.inl ((hexact o).mpr ⟨ho, hout⟩)

/-- A certificate is exact if the objects listed for its packs are those found by a search. -/
theorem PackGroupCoverage.exact_of_closure [CharTables] {db : Odb} {held : Oid → List Oid}
    {cfg : RefsConfig} {snapshot : RefSnapshot} {proof : PackGroupCoverage} (roots : GroupRoots)
    (hroots : (cfg.resolveGroups snapshot).toOption.bind (·.find? proof.group) = some roots)
    (hobjects : (proof.packs.filterMap fromHex).flatMap held ⊆
        (db.closure (roots.included.filterMap fromHex)).filter
          (· ∉ db.closure (roots.excluded.filterMap fromHex)) ∧
      (db.closure (roots.included.filterMap fromHex)).filter
          (· ∉ db.closure (roots.excluded.filterMap fromHex)) ⊆
        (proof.packs.filterMap fromHex).flatMap held) :
    proof.Exact db (fun pack o => o ∈ held pack) cfg snapshot := by
  obtain ⟨groups, hresolve, hfind⟩ := Option.bind_eq_some_iff.mp hroots
  refine ⟨groups, roots, Checks.toOption_eq_some.mp hresolve, hfind, fun o => ?_⟩
  have hheld : (∃ id ∈ proof.packs, ∃ pack, fromHex id = some pack ∧ o ∈ held pack) ↔
      o ∈ (proof.packs.filterMap fromHex).flatMap held := by
    simp only [List.mem_flatMap, List.mem_filterMap]
    exact ⟨fun ⟨id, hid, pack, hpack, ho⟩ => ⟨pack, ⟨id, hid, hpack⟩, ho⟩,
      fun ⟨pack, ⟨id, hid, hpack⟩, ho⟩ => ⟨id, hid, pack, hpack, ho⟩⟩
  rw [hheld, ← Odb.mem_closure, ← Odb.mem_closure]
  constructor
  · intro h
    simpa using hobjects.1 h
  · intro h
    exact hobjects.2 (by simpa using h)

end Walgit
