import Walgit.SegmentConservation

/-!
# Packs and groups

Which groups have all objects of a pack, and which groups are exactly what their packs hold. Both
are read off counts and differences of sorted lists, and no pack is rewritten for it.
-/
namespace Walgit.PackSegments

open Streams

/-- `intersection_count`: how many lines of a list an index has; it stops where the index ends. -/
def intersectionCount : List Oid → List Line → ℕ → Except SegmentError ℕ
  | _, [], count => .ok count
  | objects, l :: lines, count =>
    match fromHex l.oid with
    | none => .error .gix
    | some oid =>
      match objects.dropWhile fun o => o < oid with
      | [] => .ok count
      | o :: rest => intersectionCount (o :: rest) lines (if o = oid then count + 1 else count)

structure PackMembership where
  checksum : String
  groups : List String
  kind : PackKind
  audience : Option PackGroupKind
  mixed : Bool
  deriving DecidableEq, Repr

structure Classification where
  packs : List PackMembership
  groupComplete : SortedMap String Bool

/-- The counts of a pack for each group, and the kinds of objects it has. -/
structure Counts where
  groups : SortedMap String (ℕ × Option PackGroupKind)
  history : Bool
  blobs : Bool

def countFamily (oids : List Oid) (c : Counts) (f : Family) : Except SegmentError Counts := do
  let count ← intersectionCount oids f.objects 0
  let entry := (c.groups.find? f.group).getD (0, f.audience)
  pure {
    groups := c.groups.insert f.group (entry.1 + count, entry.2)
    history := c.history || (0 < count && f.kind = .history)
    blobs := c.blobs || (0 < count && f.kind = .blobs) }

/-- The membership of a pack by its counts. -/
def membership (descriptor : PackRef) (counts : Counts) : PackMembership :=
  let common := counts.groups.entries.filter fun g =>
    g.2.1 = descriptor.objectCount && 0 < g.2.1
  let groups := common.map Prod.fst
  { checksum := descriptor.checksum
    groups := groups
    kind := match counts.history, counts.blobs with
      | true, false => .history
      | false, true => .blobs
      | _, _ => .objects
    audience :=
      if common.any fun g => g.2.2 = some .code then some .code
      else if common.any fun g => g.2.2 = some .metadata then some .metadata
      else none
    mixed := groups = [] }

def classifyPack (plan : SegmentPlan) (descriptor : PackRef) :
    Except SegmentError PackMembership :=
  match plan.input.db.index descriptor.checksum with
  | none => .error .gix
  | some oids => do
    let counts ← plan.families.foldlM (countFamily oids) ⟨.empty, false, false⟩
    pure (membership descriptor counts)

/-- Whether the packs of a group are what its families list. -/
def checkComplete (plan : SegmentPlan) (packs : List PackMembership) (group : String)
    (complete : Bool) : Except SegmentError Bool :=
  if !complete || group = "_retained" then .ok false
  else do
    let expected := (plan.families.filter fun f => f.group = group).flatMap fun f =>
      f.objects.map fun l => Line.bare l.oid
    let actual ← (packs.filter fun m => !m.mixed && group ∈ m.groups).mapM fun m =>
      indexLines plan.input.db m.checksum
    pure (differences Line.text (sortUnique Line.oid expected)
      (sortUnique Line.oid actual.flatten) = [])

def classify (plan : SegmentPlan) : Except SegmentError Classification := do
  let packs ← plan.selected.mapM (classifyPack plan)
  let allSelected := plan.selected.length = plan.input.packs.length
  let complete := plan.families.foldl (fun m f =>
    if (m.find? f.group).isSome then m else m.insert f.group (decide allSelected)) SortedMap.empty
  let groupComplete ← complete.entries.foldlM (fun m g => do
    let complete ← checkComplete plan packs g.1 g.2
    pure (m.insert g.1 complete)) SortedMap.empty
  pure ⟨packs, groupComplete⟩

section Counts

/-- The lines of a family that an index has. -/
def shared (oids : List Oid) (f : Family) : List Line := intersect Line.oid id f.objects oids

theorem intersectionCount_eq {lines : List Line} (hhex : HexLines lines) (objects : List Oid)
    (count : ℕ) : intersectionCount objects lines count =
      .ok (count + (intersect Line.oid id lines objects).length) := by
  induction lines generalizing objects count with
  | nil => rfl
  | cons l lines ih =>
    have hrest : HexLines lines := fun l' hl' => hhex l' (List.mem_cons_of_mem l hl')
    rw [intersectionCount, hhex l List.mem_cons_self, intersect]
    simp only [id_eq]
    split
    · rename_i hdrop
      rw [hdrop]
      rfl
    · rename_i o rest hdrop
      rw [hdrop]
      simp only
      rw [ih hrest]
      split_ifs with heq
      · rw [List.length_cons, Nat.add_assoc, Nat.add_comm 1]
      · rfl

def Counts.count (c : Counts) (group : String) : ℕ :=
  ((c.groups.find? group).map Prod.fst).getD 0

theorem countFamily_eq {f : Family} (hhex : HexLines f.objects) (oids : List Oid) (c : Counts) :
    ∃ c', countFamily oids c f = .ok c' ∧ ∀ group, c'.count group =
      c.count group + if f.group = group then (shared oids f).length else 0 := by
  refine ⟨_, by rw [countFamily, intersectionCount_eq hhex]; rfl, fun group => ?_⟩
  simp only [Counts.count, SortedMap.find?_insert, Nat.zero_add]
  by_cases hgroup : f.group = group
  · subst hgroup
    cases hfind : c.groups.find? f.group with
    | none => simp [shared]
    | some entry => simp [shared]
  · simp [hgroup, Ne.symm hgroup]

/-- The counts of a pack add up over the families of a group. -/
theorem countFamilies_eq {families : List Family} (hhex : ∀ f ∈ families, HexLines f.objects)
    (oids : List Oid) (c : Counts) :
    ∃ c', families.foldlM (countFamily oids) c = .ok c' ∧ ∀ group, c'.count group =
      c.count group + ((families.filter fun f => f.group = group).flatMap (shared oids)).length := by
  induction families generalizing c with
  | nil => exact ⟨c, rfl, by simp⟩
  | cons f families ih =>
    rw [List.forall_mem_cons] at hhex
    obtain ⟨mid, hmid, hcount⟩ := countFamily_eq hhex.1 oids c
    obtain ⟨c', hc', hrest⟩ := ih hhex.2 mid
    refine ⟨c', by simp only [List.foldlM_cons, hmid]; exact hc', fun group => ?_⟩
    rw [hrest, hcount]
    by_cases hgroup : f.group = group
    · simp [hgroup]
      omega
    · simp [hgroup]

theorem mem_membership {descriptor : PackRef} {counts : Counts} {group : String} :
    group ∈ (membership descriptor counts).groups ↔
      counts.count group = descriptor.objectCount ∧ 0 < counts.count group := by
  simp only [membership, List.mem_map, List.mem_filter, Bool.and_eq_true, decide_eq_true_eq]
  constructor
  · rintro ⟨g, ⟨hg, hcount, hpos⟩, rfl⟩
    have hfind := SortedMap.find?_eq_some_of_mem hg
    simpa [Counts.count, hfind] using ⟨hcount, hpos⟩
  · rintro ⟨hcount, hpos⟩
    cases hfind : counts.groups.find? group with
    | none => simp [Counts.count, hfind] at hpos
    | some entry =>
      simp only [Counts.count, hfind, Option.map_some, Option.getD_some] at hcount hpos
      exact ⟨(group, entry), ⟨SortedMap.find?_eq_some_iff.mp hfind, hcount, hpos⟩, rfl⟩

end Counts

section Exact

/-- A part of a list without duplicates is as long only if it is all of it. -/
theorem length_eq_iff_subset {α : Type} {l l' : List α} (hl : l.Nodup) (hl' : l'.Nodup)
    (hsub : l ⊆ l') : l.length = l'.length ↔ l' ⊆ l := by
  refine ⟨fun hlength => ?_, fun hback => ?_⟩
  · exact ((List.subperm_of_subset hl hsub).perm_of_length_le hlength.ge).symm.subset
  · exact le_antisymm (List.subperm_of_subset hl hsub).length_le
      (List.subperm_of_subset hl' hback).length_le

/-- The object is in a family of the group. -/
def InGroup (plan : SegmentPlan) (group : String) (oid : Oid) : Prop :=
  ∃ f ∈ plan.families, f.group = group ∧ ∃ l ∈ f.objects, l.oid = oid

/-- What the families of a group share with an index, each object once. -/
theorem shared_oids {plan : SegmentPlan} {lists : List GroupList}
    (h : FamiliesOf plan.input.db plan.work lists plan.families) (hwork : plan.work.Sorted)
    {oids : List Oid} (hoids : oids.Pairwise (· < ·)) (group : String) :
    let all := ((plan.families.filter fun f => f.group = group).flatMap (shared oids)).map Line.oid
    all.Nodup ∧ ∀ oid, oid ∈ all ↔ oid ∈ oids ∧ InGroup plan group oid := by
  have hmem : ∀ f ∈ plan.families, ∀ l, l ∈ shared oids f ↔ l ∈ f.objects ∧ l.oid ∈ oids := by
    intro f hf l
    have hids : Ascending id oids := hoids
    rw [shared, mem_intersect (h.sorted hwork hf).1 hids]
    simp
  intro all
  constructor
  · simp only [all]
    rw [List.map_flatMap, List.nodup_flatMap]
    refine ⟨fun f hf => ?_, ?_⟩
    · have hsub : (shared oids f).Sublist f.objects := intersect_sublist _ _
      have hasc := (h.sorted hwork (List.mem_of_mem_filter hf)).1.sublist hsub
      exact (List.pairwise_map.mpr hasc).imp fun hlt => hlt.ne
    · refine (h.kinds group).imp_of_mem fun {f f'} hf hf' hne => ?_
      have hf := List.mem_of_mem_filter hf
      have hf' := List.mem_of_mem_filter hf'
      simp only [Function.onFun, List.disjoint_left, List.mem_map]
      rintro oid ⟨l, hl, rfl⟩ ⟨l', hl', heq⟩
      exact h.disjoint hf hf' hne ((hmem f hf l).mp hl).1 ((hmem f' hf' l').mp hl').1 heq.symm
  · intro oid
    simp only [all, List.mem_map, List.mem_flatMap, List.mem_filter, decide_eq_true_eq, InGroup]
    constructor
    · rintro ⟨l, ⟨f, ⟨hf, hgroup⟩, hl⟩, rfl⟩
      obtain ⟨hl, hin⟩ := (hmem f hf l).mp hl
      exact ⟨hin, f, hf, hgroup, l, hl, rfl⟩
    · rintro ⟨hin, f, hf, hgroup, l, hl, rfl⟩
      exact ⟨l, ⟨f, ⟨hf, hgroup⟩, (hmem f hf l).mpr ⟨hl, hin⟩⟩, rfl⟩

/-- The groups of a pack whose descriptor counts its objects are those that have all of them. -/
theorem classifyPack_ok {plan : SegmentPlan} {lists : List GroupList}
    (h : FamiliesOf plan.input.db plan.work lists plan.families) (hwork : plan.work.Sorted)
    {p : PackRef} {oids : List Oid} (hindex : plan.input.db.index p.checksum = some oids)
    (hoids : oids.Pairwise (· < ·)) : ∃ m, classifyPack plan p = .ok m ∧
      m.checksum = p.checksum ∧ (m.mixed = true ↔ m.groups = []) ∧
      (p.objectCount = oids.length → ∀ group, group ∈ m.groups ↔
        oids ≠ [] ∧ ∀ oid ∈ oids, InGroup plan group oid) := by
  obtain ⟨counts, hcounts, hcount⟩ := countFamilies_eq
    (fun f hf => (h.sorted hwork hf).2) oids ⟨.empty, false, false⟩
  refine ⟨membership p counts, ?_, rfl, by simp [membership], fun hlength group => ?_⟩
  · simp only [classifyPack, hindex, hcounts, bind, Except.bind, pure, Except.pure]
  · obtain ⟨hnodup, hall⟩ := shared_oids h hwork hoids group
    have hsub : ((plan.families.filter fun f => f.group = group).flatMap
        (shared oids)).map Line.oid ⊆ oids := fun oid hoid => ((hall oid).mp hoid).1
    have hiff := length_eq_iff_subset hnodup (hoids.imp fun hlt => hlt.ne) hsub
    rw [List.length_map] at hiff
    rw [mem_membership, hcount, hlength]
    simp only [Counts.count, SortedMap.find?_empty, Option.map_none, Option.getD_none,
      Nat.zero_add]
    rw [hiff]
    constructor
    · rintro ⟨hback, hpos⟩
      refine ⟨?_, fun oid hoid => ((hall oid).mp (hback hoid)).2⟩
      rintro rfl
      simp [hiff.mpr hback] at hpos
    · rintro ⟨hne, hgroup⟩
      have hback : oids ⊆ ((plan.families.filter fun f => f.group = group).flatMap
          (shared oids)).map Line.oid := fun oid hoid => (hall oid).mpr ⟨hoid, hgroup oid hoid⟩
      exact ⟨hback, hiff.mpr hback ▸ List.length_pos_of_ne_nil hne⟩

/-- The first pass has an entry for every group of a family. -/
theorem find?_families (families : List Family) (all : Bool) (m : SortedMap String Bool)
    (group : String) :
    (families.foldl (fun m f => if (m.find? f.group).isSome then m else m.insert f.group all)
      m).find? group = if (m.find? group).isSome then m.find? group
        else if ∃ f ∈ families, f.group = group then some all else none := by
  induction families generalizing m with
  | nil => cases hfind : m.find? group <;> simp [hfind]
  | cons f families ih =>
    rw [List.foldl_cons, ih]
    by_cases hthere : (m.find? f.group).isSome
    · rw [if_pos hthere]
      by_cases hgroup : f.group = group
      · subst hgroup
        simp [hthere]
      · simp [hgroup]
    · rw [if_neg hthere, SortedMap.find?_insert]
      by_cases hgroup : f.group = group
      · subst hgroup
        simp [hthere]
      · simp [hgroup, Ne.symm hgroup]

/-- The second pass puts the result of every entry in its place. -/
theorem foldlM_insert {f : String × Bool → Except SegmentError Bool}
    {entries : List (String × Bool)} (hf : ∀ e ∈ entries, ∃ b, f e = .ok b)
    (hkeys : (entries.map Prod.fst).Nodup) (m : SortedMap String Bool) :
    ∃ r, entries.foldlM (fun m e => do
        let b ← f e
        pure (m.insert e.1 b)) m = .ok r ∧
      (∀ e ∈ entries, ∃ b, f e = .ok b ∧ r.find? e.1 = some b) ∧
      ∀ k ∉ entries.map Prod.fst, r.find? k = m.find? k := by
  induction entries generalizing m with
  | nil => exact ⟨m, rfl, by simp⟩
  | cons e entries ih =>
    rw [List.forall_mem_cons] at hf
    obtain ⟨⟨b, hb⟩, hrest⟩ := hf
    obtain ⟨hnew, hnodup⟩ := List.nodup_cons.mp hkeys
    obtain ⟨r, hr, hin, hout⟩ := ih hrest hnodup (m.insert e.1 b)
    refine ⟨r, ?_, List.forall_mem_cons.mpr ⟨⟨b, hb, ?_⟩, hin⟩, fun k hk => ?_⟩
    · simp only [List.foldlM_cons, hb, bind, Except.bind, pure, Except.pure] at hr ⊢
      exact hr
    · rw [hout _ hnew, SortedMap.find?_insert, if_pos rfl]
    · rw [List.map_cons, List.mem_cons, not_or] at hk
      rw [hout k hk.2, SortedMap.find?_insert, if_neg hk.1]

theorem bare_ascending {lines : List Line} (h : Bare lines) :
    Ascending Line.text (sortUnique Line.oid lines) :=
  (Bare.sortUnique h).ascending (sortUnique_ascending _)

/-- Two lists of oids differ in nothing exactly if they have the same oids. -/
theorem differences_bare {lines lines' : List Line} (h : Bare lines) (h' : Bare lines') :
    differences Line.text (sortUnique Line.oid lines) (sortUnique Line.oid lines') = [] ↔
      ∀ oid, (∃ l ∈ lines, l.oid = oid) ↔ ∃ l ∈ lines', l.oid = oid := by
  have hkeys : ∀ {lines : List Line}, Bare lines → ∀ k,
      (∃ l ∈ sortUnique Line.oid lines, l.text = k) ↔ ∃ l ∈ lines, l.oid = k := by
    intro lines h k
    have hsort : (∃ l ∈ sortUnique Line.oid lines, l.oid = k) ↔ ∃ l ∈ lines, l.oid = k :=
      exists_mem_sortUnique
    rw [← hsort]
    refine exists_congr fun l => and_congr_right fun hl => ?_
    rw [(Bare.sortUnique h).text_eq hl]
  rw [differences_eq_nil_iff (bare_ascending h) (bare_ascending h')]
  exact forall_congr' fun k => iff_congr (hkeys h k) (hkeys h' k)

/-- The packs of a group have together what its families have. -/
def PacksHold (plan : SegmentPlan) (packs : List PackMembership) (group : String) : Prop :=
  ∀ oid, (∃ m ∈ packs, m.mixed = false ∧ group ∈ m.groups ∧
    ∃ oids, plan.input.db.index m.checksum = some oids ∧ oid ∈ oids) ↔ InGroup plan group oid

theorem checkComplete_ok {plan : SegmentPlan} {packs : List PackMembership}
    (hpacks : ∀ m ∈ packs, ∃ oids, plan.input.db.index m.checksum = some oids) (group : String)
    (complete : Bool) : ∃ b, checkComplete plan packs group complete = .ok b ∧
      (b = true ↔ complete = true ∧ group ≠ "_retained" ∧ PacksHold plan packs group) := by
  unfold checkComplete
  split_ifs with hstop
  · refine ⟨false, rfl, ?_⟩
    simp only [Bool.or_eq_true, Bool.not_eq_true', decide_eq_true_eq] at hstop
    rcases hstop with h | h <;> simp [h]
  · simp only [Bool.or_eq_true, Bool.not_eq_true', decide_eq_true_eq, not_or,
      Bool.not_eq_false] at hstop
    set members := packs.filter fun m => !m.mixed && group ∈ m.groups with hmembers
    have hlines : ∀ m ∈ members, ∃ lines, indexLines plan.input.db m.checksum = .ok lines := by
      intro m hm
      obtain ⟨oids, hindex⟩ := hpacks m (List.mem_of_mem_filter hm)
      exact ⟨oids.map Line.bare, by simp only [indexLines, hindex]⟩
    obtain ⟨actual, hactual⟩ := Checks.mapM_ok_iff.mpr hlines
    obtain ⟨hbare, hactually⟩ := mem_indexLines hactual
    set expected := (plan.families.filter fun f => f.group = group).flatMap fun f =>
      f.objects.map fun l => Line.bare l.oid with hexpected
    have hexpectedBare : Bare expected := by
      intro l hl
      obtain ⟨f, -, hl⟩ := List.mem_flatMap.mp hl
      obtain ⟨l', -, rfl⟩ := List.mem_map.mp hl
      rfl
    have hgroup : ∀ oid, (∃ l ∈ expected, l.oid = oid) ↔ InGroup plan group oid := by
      intro oid
      simp only [hexpected, List.mem_flatMap, List.mem_filter, decide_eq_true_eq, List.mem_map,
        InGroup]
      constructor
      · rintro ⟨l, ⟨f, ⟨hf, hname⟩, l', hl', rfl⟩, rfl⟩
        exact ⟨f, hf, hname, l', hl', rfl⟩
      · rintro ⟨f, hf, hname, l, hl, rfl⟩
        exact ⟨_, ⟨f, ⟨hf, hname⟩, l, hl, rfl⟩, rfl⟩
    have hhold : PacksHold plan packs group ↔
        ∀ oid, (∃ l ∈ expected, l.oid = oid) ↔ ∃ l ∈ actual.flatten, l.oid = oid := by
      refine forall_congr' fun oid => ?_
      rw [hgroup, hactually, hmembers]
      simp only [List.mem_filter, Bool.and_eq_true, Bool.not_eq_true', decide_eq_true_eq, and_assoc]
      exact Iff.comm
    refine ⟨decide (differences Line.text (sortUnique Line.oid expected)
      (sortUnique Line.oid actual.flatten) = []), ?_, ?_⟩
    · simp only [hactual, bind, Except.bind, pure, Except.pure]
    · rw [decide_eq_true_eq, differences_bare hexpectedBare hbare, hhold]
      exact ⟨fun hsame => ⟨hstop.1, hstop.2, hsame⟩, fun hall => hall.2.2⟩

/-- A classification says of every selected pack which groups have all of it, and of every group
whether the packs have exactly that. -/
structure Exact (plan : SegmentPlan) (c : Classification) : Prop where
  packs : ∀ p ∈ plan.selected, ∃ m ∈ c.packs, m.checksum = p.checksum
  groups : ∀ p ∈ plan.selected, ∀ m ∈ c.packs, m.checksum = p.checksum → ∀ oids,
    plan.input.db.index p.checksum = some oids → p.objectCount = oids.length →
      ∀ group, group ∈ m.groups ↔ oids ≠ [] ∧ ∀ oid ∈ oids, InGroup plan group oid
  complete : ∀ group, c.groupComplete.find? group = some true ↔
    (∃ f ∈ plan.families, f.group = group) ∧ (∀ p ∈ plan.input.packs, p ∈ plan.selected) ∧
      group ≠ "_retained" ∧ PacksHold plan c.packs group

end Exact

section Runs

attribute [local instance] Text.asciiTables

end Runs

end Walgit.PackSegments
