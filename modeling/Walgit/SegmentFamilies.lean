import Walgit.PackSegments

/-!
# The families of a cut

Every file of a cut is sorted, so the families are ascending lists. The families of a group share
its list between them, each with the objects of its kind.
-/
namespace Walgit.PackSegments

open ObjectLinks (ObjectDb)
open Streams

def isBlob (db : ObjectDb) (oid : Oid) : Bool := (db.find oid).any fun object => object.kind = .blob

/-- The object belongs to the families of a kind. -/
def ofKind (db : ObjectDb) (kind : PackKind) (oid : Oid) : Bool :=
  isBlob db oid = (kind = .blobs)

theorem splitLine_ok {db : ObjectDb} {l : Line} {lists lists' : List Line × List Line}
    (h : splitLine lists (catFile db l) = .ok lists') : (db.find l.oid).isSome ∧
      lists'.1.map Line.oid = lists.1.map Line.oid ++ [l.oid].filter (ofKind db .history) ∧
      lists'.2.map Line.oid = lists.2.map Line.oid ++ [l.oid].filter (ofKind db .blobs) := by
  unfold catFile at h
  cases hfind : db.find l.oid with
  | none =>
    rw [hfind] at h
    unfold splitLine at h
    split at h
    · cases h
    · simp at h
  | some object =>
    rw [hfind] at h
    unfold splitLine at h
    split at h
    · cases h
    · cases hkind : object.kind <;>
        simp only [hkind, objectType, String.reduceEq, reduceIte, decide_true, decide_false,
          Bool.or_true, Bool.or_false, Bool.false_eq_true] at h <;>
        cases h <;> simp [ofKind, isBlob, hfind, hkind]

theorem splitTypes_ok {db : ObjectDb} {list history blobs : List Line}
    (h : splitTypes (list.map (catFile db)) = .ok (history, blobs)) :
    (∀ l ∈ list, (db.find l.oid).isSome) ∧
      history.map Line.oid = (list.map Line.oid).filter (ofKind db .history) ∧
      blobs.map Line.oid = (list.map Line.oid).filter (ofKind db .blobs) := by
  suffices hfold : ∀ (lists lists' : List Line × List Line),
      (list.map (catFile db)).foldlM splitLine lists = .ok lists' →
      (∀ l ∈ list, (db.find l.oid).isSome) ∧
        lists'.1.map Line.oid = lists.1.map Line.oid ++
          (list.map Line.oid).filter (ofKind db .history) ∧
        lists'.2.map Line.oid = lists.2.map Line.oid ++
          (list.map Line.oid).filter (ofKind db .blobs) by
    simpa using hfold _ _ h
  clear h
  induction list with
  | nil =>
    intro lists lists' h
    cases h
    simp
  | cons l list ih =>
    intro lists lists' h
    rw [List.map_cons, List.foldlM_cons, Checks.bind_eq_ok] at h
    obtain ⟨mid, hline, hrest⟩ := h
    obtain ⟨hfind, hhistory, hblobs⟩ := splitLine_ok hline
    obtain ⟨hall, hhistory', hblobs'⟩ := ih _ _ hrest
    refine ⟨List.forall_mem_cons.mpr ⟨hfind, hall⟩, ?_, ?_⟩
    · rw [hhistory', hhistory, List.append_assoc, ← List.filter_append]
      rfl
    · rw [hblobs', hblobs, List.append_assoc, ← List.filter_append]
      rfl

/-- A family as it is cut from the list of its group. -/
structure Cuts (db : ObjectDb) (work : Work) (g : GroupList) (f : Family) : Prop where
  group : f.group = g.group
  audience : f.audience = g.audience
  dependencies : f.dependencies = g.dependencies
  kind : f.kind = .history ∨ f.kind = .blobs
  oids : f.objects.map Line.oid =
    ((work.sorted g.group).map Line.oid).filter (ofKind db f.kind)
  nonempty : f.objects ≠ []
  pending : f.completed = false

theorem typedFamilies_ok {db : ObjectDb} {work : Work} {g : GroupList} {fs : List Family}
    (h : typedFamilies db work g = .ok fs) :
    (∀ f ∈ fs, Cuts db work g f) ∧ (fs.map Family.kind).Nodup ∧
      ∀ l ∈ work.sorted g.group, (db.find l.oid).isSome ∧ ∃ f ∈ fs, ∃ l' ∈ f.objects,
        l'.oid = l.oid := by
  obtain ⟨⟨history, blobs⟩, hsplit, h⟩ := Checks.bind_eq_ok.mp h
  obtain ⟨hfind, hhistory, hblobs⟩ := splitTypes_ok hsplit
  simp only [pure, Except.pure, Except.ok.injEq] at h
  subst h
  refine ⟨fun f hf => ?_, ?_, fun l hl => ⟨hfind l hl, ?_⟩⟩
  · obtain ⟨k, hk, rfl⟩ := List.mem_map.mp hf
    obtain ⟨hk, hne⟩ := List.mem_filter.mp hk
    rcases List.mem_cons.mp hk with rfl | hk
    · exact ⟨rfl, rfl, rfl, Or.inl rfl, hhistory, by simpa using hne, rfl⟩
    · cases List.mem_singleton.mp hk
      exact ⟨rfl, rfl, rfl, Or.inr rfl, hblobs, by simpa using hne, rfl⟩
  · rw [List.map_map]
    have hsub := (List.filter_sublist (p := fun k : PackKind × List Line => decide (k.2 ≠ []))
      (l := [(PackKind.history, history), (.blobs, blobs)])).map Prod.fst
    exact hsub.nodup (by simp)
  · have hmem : ∀ (kind : PackKind) (lines : List Line),
        (kind, lines) ∈ [(PackKind.history, history), (.blobs, blobs)] →
        l.oid ∈ lines.map Line.oid → ∃ f ∈ (([(PackKind.history, history), (.blobs, blobs)].filter
          fun k => k.2 ≠ []).map fun k => (⟨g.group, g.audience, g.dependencies, k.1, k.2, false⟩ :
            Family)), ∃ l' ∈ f.objects, l'.oid = l.oid := by
      intro kind lines hkind hoid
      obtain ⟨l', hl', heq⟩ := List.mem_map.mp hoid
      have hne : lines ≠ [] := fun hnil => by simp [hnil] at hl'
      exact ⟨_, List.mem_map_of_mem (List.mem_filter.mpr ⟨hkind, by simpa using hne⟩), l', hl', heq⟩
    have hoid : l.oid ∈ (work.sorted g.group).map Line.oid := List.mem_map_of_mem hl
    cases hblob : isBlob db l.oid with
    | true =>
      refine hmem .blobs blobs (by simp) (hblobs ▸ List.mem_filter.mpr ⟨hoid, ?_⟩)
      simp [ofKind, hblob]
    | false =>
      refine hmem .history history (by simp) (hhistory ▸ List.mem_filter.mpr ⟨hoid, ?_⟩)
      simp [ofKind, hblob]

section Plan

variable {git : Git}

/-- The lines have oids in full. -/
def HexLines (lines : List Line) : Prop := ∀ l ∈ lines, fromHex l.oid = some l.oid

theorem HexLines.bare {lines : List Line} (h : HexLines lines) :
    HexLines (lines.map fun l => .bare l.oid) := by
  intro l hl
  obtain ⟨l', hl', rfl⟩ := List.mem_map.mp hl
  exact h l' hl'

theorem HexLines.append {lines lines' : List Line} (h : HexLines lines) (h' : HexLines lines') :
    HexLines (lines ++ lines') := fun l hl =>
  (List.mem_append.mp hl).elim (h l) (h' l)

/-- What one group writes: its list, with oids that are lines of the inventory. -/
theorem planGroup_ok {c c' : Cut} {g : String × GroupRoots} (h : planGroup git c g = .ok c') :
    ∃ full list, c'.work.sorted = Function.update c.work.sorted g.1 list ∧ HexLines full ∧
      list.Sublist full ∧ Ascending Line.oid list ∧
      (∀ l ∈ list, ∃ i ∈ c.work.sorted "indexed", i.text = l.oid) ∧
      c'.union = c.union ++ list.map (fun l => .bare l.oid) ∧
      c'.fullUnion = c.fullUnion ++ full.map (fun l => .bare l.oid) ∧
      c'.lists = c.lists ++ [⟨g.1, some g.2.kind, g.2.dependencies⟩] := by
  obtain ⟨raw, hraw, h⟩ := Checks.bind_eq_ok.mp h
  cases h
  have hhex : HexLines raw := by
    unfold walkRoots at hraw
    split_ifs at hraw with hroots
    · cases hraw
      simp [HexLines]
    · exact git.revList_oids _ _ _ hraw
  refine ⟨_, _, rfl, fun l hl => ?_, intersect_sublist _ _, ?_, fun l hl => intersect_keys hl, rfl,
    rfl, rfl⟩
  · have hmem := mem_of_mem_sortUnique hl
    rw [Work.writeRaw_raw] at hmem
    exact hhex l hmem
  · exact (sortUnique_ascending _).sublist (intersect_sublist _ _)

/-- Every file is sorted, with oids in full. -/
structure Work.Sorted (w : Work) : Prop where
  ascending : ∀ name, Ascending Line.oid (w.sorted name)
  hex : ∀ name, HexLines (w.sorted name)

theorem Work.Sorted.update {w w' : Work} (h : w.Sorted) {name : String} {list : List Line}
    (hlist : Ascending Line.oid list) (hhex : HexLines list)
    (hw : w'.sorted = Function.update w.sorted name list) : w'.Sorted := by
  refine ⟨fun name' => ?_, fun name' => ?_⟩ <;> rw [hw, Function.update_apply] <;> split_ifs
  · exact hlist
  · exact h.ascending name'
  · exact hhex
  · exact h.hex name'

/-- Sorting lines that were just written. -/
theorem Work.Sorted.sort {w : Work} (h : w.Sorted) {lines : List Line} (hhex : HexLines lines)
    (name : String) : ((w.writeRaw name lines).sort name).Sorted := by
  refine h.update (sortUnique_ascending _) (fun l hl => hhex l ?_) rfl
  have hmem := mem_of_mem_sortUnique hl
  rwa [Work.writeRaw_raw] at hmem

theorem inventories_sorted {indexed all : List Line} (hindexed : HexLines indexed)
    (hall : HexLines all) : (inventories indexed all).Sorted := by
  have hempty : Work.empty.Sorted :=
    ⟨fun _ => List.Pairwise.nil, fun _ => by simp [HexLines, Work.empty]⟩
  exact (hempty.sort hindexed "indexed").sort hall "all-indexed"

/-- The files and the open writers of a cut. -/
structure Cut.Sorted (c : Cut) : Prop where
  work : c.work.Sorted
  union : HexLines c.union
  fullUnion : HexLines c.fullUnion

theorem Cut.Sorted.close {c : Cut} (h : c.Sorted) : c.close.Sorted := by
  have hgroups := h.work.sort h.union "groups"
  set work := (c.work.writeRaw "groups" c.union).sort "groups" with hwork
  set retained := onlyFirst Line.text (work.sorted "indexed") (work.sorted "groups")
  have hsub : retained.Sublist (work.sorted "indexed") := onlyFirst_sublist _ _
  have hretained : (work.writeSorted "_retained" retained).Sorted :=
    hgroups.update ((hgroups.ascending "indexed").sublist hsub)
      (fun l hl => hgroups.hex "indexed" l (hsub.subset hl)) rfl
  exact hretained.sort h.fullUnion "all-groups"

/-- The loop keeps the files sorted, and has a list for every group. -/
theorem planGroups_ok {entries : List (String × GroupRoots)} {c c' : Cut}
    (h : entries.foldlM (planGroup git) c = .ok c') (hc : c.Sorted) :
    c'.Sorted ∧ c'.lists = c.lists ++ entries.map fun g =>
      ⟨g.1, some g.2.kind, g.2.dependencies⟩ := by
  induction entries generalizing c with
  | nil =>
    cases h
    exact ⟨hc, by simp⟩
  | cons g entries ih =>
    rw [List.foldlM_cons, Checks.bind_eq_ok] at h
    obtain ⟨mid, hgroup, hrest⟩ := h
    obtain ⟨full, list, hwork, hfull, hsub, hlist, -, hunion, hfullUnion, hlists⟩ :=
      planGroup_ok hgroup
    have hhex : HexLines list := fun l hl => hfull l (hsub.subset hl)
    have hmid : mid.Sorted := ⟨hc.work.update hlist hhex hwork,
      hunion ▸ hc.union.append hhex.bare, hfullUnion ▸ hc.fullUnion.append hfull.bare⟩
    obtain ⟨hend, hall⟩ := ih hrest hmid
    exact ⟨hend, by simp [hall, hlists]⟩

/-- The families that are cut from some lists. -/
structure FamiliesOf (db : ObjectDb) (work : Work) (lists : List GroupList)
    (families : List Family) : Prop where
  cuts : ∀ f ∈ families, ∃ g ∈ lists, Cuts db work g f
  distinct : (families.map fun f => (f.group, f.kind)).Nodup
  covers : ∀ g ∈ lists, ∀ l ∈ work.sorted g.group, (db.find l.oid).isSome ∧
    ∃ f ∈ families, f.group = g.group ∧ ∃ l' ∈ f.objects, l'.oid = l.oid

theorem familiesOf_lists {db : ObjectDb} {work : Work} {lists : List GroupList}
    {fss : List (List Family)} (hnames : (lists.map GroupList.group).Nodup)
    (h : lists.mapM (typedFamilies db work) = .ok fss) :
    FamiliesOf db work lists fss.flatten := by
  induction lists generalizing fss with
  | nil =>
    cases h
    exact ⟨by simp, by simp, by simp⟩
  | cons g lists ih =>
    simp only [List.mapM_cons, Checks.bind_eq_ok] at h
    obtain ⟨fs, hfs, rest, hrest, h⟩ := h
    cases h
    obtain ⟨hnew, hnodup⟩ := List.nodup_cons.mp hnames
    obtain ⟨hcuts, hkinds, hcovers⟩ := typedFamilies_ok hfs
    have hlater := ih hnodup hrest
    refine ⟨fun f hf => ?_, ?_, fun g' hg' l hl => ?_⟩
    · rw [List.flatten_cons, List.mem_append] at hf
      rcases hf with hf | hf
      · exact ⟨g, List.mem_cons_self, hcuts f hf⟩
      · obtain ⟨g', hg', hcut⟩ := hlater.cuts f hf
        exact ⟨g', List.mem_cons_of_mem g hg', hcut⟩
    · rw [List.flatten_cons, List.map_append, List.nodup_append]
      refine ⟨?_, hlater.distinct, ?_⟩
      · have hpairs : fs.map (fun f => (f.group, f.kind)) =
            (fs.map Family.kind).map fun k => (g.group, k) := by
          rw [List.map_map]
          exact List.map_congr_left fun f hf => by simp [(hcuts f hf).group]
        exact hpairs ▸ hkinds.map fun _ _ heq => (Prod.mk.inj heq).2
      · intro p hp q hq heq
        obtain ⟨f, hf, rfl⟩ := List.mem_map.mp hp
        obtain ⟨f', hf', rfl⟩ := List.mem_map.mp hq
        obtain ⟨g', hg', hcut⟩ := hlater.cuts f' hf'
        refine hnew (List.mem_map.mpr ⟨g', hg', ?_⟩)
        rw [← hcut.group, ← (Prod.mk.inj heq).1, (hcuts f hf).group]
    · rcases List.mem_cons.mp hg' with rfl | hg'
      · obtain ⟨hfind, f, hf, l', hl', heq⟩ := hcovers l hl
        exact ⟨hfind, f, List.mem_append_left _ hf, (hcuts f hf).group, l', hl', heq⟩
      · obtain ⟨hfind, f, hf, hgroup, l', hl', heq⟩ := hlater.covers g' hg' l hl
        exact ⟨hfind, f, List.mem_append_right fs hf, hgroup, l', hl', heq⟩

namespace FamiliesOf

variable {db : ObjectDb} {work : Work} {lists : List GroupList} {families : List Family}

/-- The families have together what the lists have. -/
theorem union (h : FamiliesOf db work lists families) (oid : Oid) :
    (∃ f ∈ families, ∃ l ∈ f.objects, l.oid = oid) ↔
      ∃ g ∈ lists, ∃ l ∈ work.sorted g.group, l.oid = oid := by
  constructor
  · rintro ⟨f, hf, l, hl, rfl⟩
    obtain ⟨g, hg, hcut⟩ := h.cuts f hf
    have hoid : l.oid ∈ f.objects.map Line.oid := List.mem_map_of_mem hl
    rw [hcut.oids] at hoid
    obtain ⟨l', hl', heq⟩ := List.mem_map.mp (List.mem_filter.mp hoid).1
    exact ⟨g, hg, l', hl', heq⟩
  · rintro ⟨g, hg, l, hl, rfl⟩
    obtain ⟨-, f, hf, -, l', hl', heq⟩ := h.covers g hg l hl
    exact ⟨f, hf, l', hl', heq⟩

/-- Every family has objects of its kind only. -/
theorem typed (h : FamiliesOf db work lists families) {f : Family} (hf : f ∈ families) {l : Line}
    (hl : l ∈ f.objects) : ∃ object, db.find l.oid = some object ∧
      (object.kind = .blob ↔ f.kind = .blobs) := by
  obtain ⟨g, hg, hcut⟩ := h.cuts f hf
  have hoid : l.oid ∈ f.objects.map Line.oid := List.mem_map_of_mem hl
  rw [hcut.oids] at hoid
  obtain ⟨hlist, hkind⟩ := List.mem_filter.mp hoid
  obtain ⟨l', hl', heq⟩ := List.mem_map.mp hlist
  have hfind := (h.covers g hg l' hl').1
  rw [heq] at hfind
  obtain ⟨object, hobject⟩ := Option.isSome_iff_exists.mp hfind
  refine ⟨object, hobject, ?_⟩
  simpa [ofKind, isBlob, hobject] using hkind

/-- Families of different kinds share no object. -/
theorem disjoint (h : FamiliesOf db work lists families) {f f' : Family} (hf : f ∈ families)
    (hf' : f' ∈ families) (hne : f.kind ≠ f'.kind) {l l' : Line} (hl : l ∈ f.objects)
    (hl' : l' ∈ f'.objects) : l.oid ≠ l'.oid := by
  intro heq
  obtain ⟨object, hobject, hkind⟩ := h.typed hf hl
  obtain ⟨object', hobject', hkind'⟩ := h.typed hf' hl'
  cases (hobject.symm.trans (heq ▸ hobject'))
  obtain ⟨g, -, hcut⟩ := h.cuts f hf
  obtain ⟨g', -, hcut'⟩ := h.cuts f' hf'
  rcases hcut.kind with hk | hk <;> rcases hcut'.kind with hk' | hk' <;> simp_all

/-- The objects of a family are in order, with oids in full. -/
theorem sorted (h : FamiliesOf db work lists families) (hwork : work.Sorted) {f : Family}
    (hf : f ∈ families) : Ascending Line.oid f.objects ∧ HexLines f.objects := by
  obtain ⟨g, -, hcut⟩ := h.cuts f hf
  refine ⟨?_, fun l hl => ?_⟩
  · have hlist : ((work.sorted g.group).map Line.oid).Pairwise (· < ·) :=
      List.pairwise_map.mpr (hwork.ascending g.group)
    have hoids : (f.objects.map Line.oid).Pairwise (· < ·) :=
      hcut.oids ▸ hlist.sublist List.filter_sublist
    exact List.pairwise_map.mp hoids
  · have hoid : l.oid ∈ f.objects.map Line.oid := List.mem_map_of_mem hl
    rw [hcut.oids] at hoid
    obtain ⟨l', hl', heq⟩ := List.mem_map.mp (List.mem_filter.mp hoid).1
    exact heq ▸ hwork.hex g.group l' hl'

/-- The families of one group are of different kinds. -/
theorem kinds (h : FamiliesOf db work lists families) (group : String) :
    (families.filter fun f => f.group = group).Pairwise fun f f' => f.kind ≠ f'.kind := by
  have hpairs : families.Pairwise fun f f' => (f.group, f.kind) ≠ (f'.group, f'.kind) :=
    List.pairwise_map.mp h.distinct
  refine (hpairs.sublist List.filter_sublist).imp_of_mem fun ha hb hne hkind => hne ?_
  have hgroup := (List.mem_filter.mp ha).2
  have hgroup' := (List.mem_filter.mp hb).2
  simp only [decide_eq_true_eq] at hgroup hgroup'
  rw [hgroup, hgroup', hkind]

end FamiliesOf

variable [Text.CharTables] {attempt : String} {input : MaintenanceInput} {selected : List String}
  {refs : RefsConfig} {resources : Resources} {plan : SegmentPlan}

omit [Text.CharTables] in
/-- The lines of some indexes. -/
theorem indexLines_hex {packs : List PackRef} (hpacks : packs ⊆ input.packs)
    {indexed : List (List Line)}
    (h : packs.mapM (fun p => indexLines input.db p.checksum) = .ok indexed) :
    HexLines indexed.flatten := by
  intro l hl
  obtain ⟨lines, hmem, hl⟩ := List.mem_flatten.mp hl
  obtain ⟨p, hp, hok⟩ := (Checks.mapM_ok h).2.2 lines hmem
  unfold indexLines at hok
  split at hok
  · cases hok
  · rename_i oids hindex
    cases hok
    obtain ⟨oid, hoid, rfl⟩ := List.mem_map.mp hl
    exact (input.indexed p (hpacks hp) oids hindex).2 oid hoid

omit [Text.CharTables] in
theorem selectPack_mem {packs selectedPacks : List PackRef}
    (h : selected.mapM (selectPack packs) = .ok selectedPacks) : selectedPacks ⊆ packs := by
  intro p hp
  obtain ⟨checksum, -, hok⟩ := (Checks.mapM_ok h).2.2 p hp
  unfold selectPack at hok
  split at hok
  · cases hok
  · rename_i q hfind
    cases hok
    exact List.mem_of_find?_eq_some hfind

/-- What a plan is made of. -/
theorem planBlocking_ok
    (h : planBlocking git attempt input selected refs resources = .ok plan) :
    ∃ groups indexed work cut fss,
      refs.resolveGroups input.refs = .ok groups ∧ plan.selected ⊆ input.packs ∧
      (plan.selected.map PackRef.checksum).Nodup ∧
      plan.selected.mapM (fun p => indexLines input.db p.checksum) = .ok indexed ∧
      work.Sorted ∧ work.sorted "indexed" = sortUnique Line.oid indexed.flatten ∧
      groups.entries.foldlM (planGroup git) ⟨work, [], [], []⟩ = .ok cut ∧
      (cut.lists ++ [GroupList.mk "_retained" none []]).mapM (typedFamilies input.db cut.close) =
        .ok fss ∧
      plan = ⟨input, plan.selected, fss.flatten, [], resources,
        input.repo ++ ["segment-work-" ++ attempt], cut.close⟩ := by
  obtain ⟨parts, hparts, hplan⟩ := Checks.bind_eq_ok.mp h
  simp only [cutFamilies, Checks.guard_ok, Checks.bind_eq_ok, pure, Except.pure] at hparts
  obtain ⟨-, _, -, groups, hgroups, packs, hpacks, -, hdup, indexed, hindexed, all, hall, cut, hcut,
    lists, hretain, fss, hfss, hmade⟩ := hparts
  cases hmade
  cases hplan
  have hlists : lists = cut.lists ++ [⟨"_retained", none, []⟩] := by
    unfold Cut.retain at hretain
    split_ifs at hretain
    cases hretain
    rfl
  have hresolve : refs.resolveGroups input.refs = .ok groups := by
    cases hr : refs.resolveGroups input.refs with
    | error e => simp [hr, Except.mapError] at hgroups
    | ok r => simpa [hr, Except.mapError] using hgroups
  have hsub := selectPack_mem hpacks
  have hsorted := inventories_sorted (indexLines_hex hsub hindexed)
    (indexLines_hex (List.Subset.refl _) hall)
  exact ⟨groups, indexed, _, cut, fss, hresolve, hsub, not_not.mp hdup, hindexed, hsorted, rfl,
    hcut, hlists ▸ hfss, rfl⟩

theorem planBlocking_input
    (h : planBlocking git attempt input selected refs resources = .ok plan) :
    plan.input = input := by
  obtain ⟨_, _, _, _, _, _, _, _, _, _, _, _, _, hplan⟩ := planBlocking_ok h
  rw [hplan]

/-- No configured group has an underscore in front of its name. -/
theorem retained_not_configured (hvalid : refs.validate = .ok ()) :
    refs.packfiles.find? "_retained" = none := by
  cases hgroup : refs.packfiles.find? "_retained" with
  | none => rfl
  | some group =>
    have hchecked := (RefsConfig.validate_ok hvalid).1 _ (SortedMap.find?_eq_some_iff.mp hgroup)
    simp only [RefsConfig.validateGroup, Checks.guard_ok] at hchecked
    have hunder : RefsConfig.validGroupName "_retained" = false := by decide
    exact absurd (by rw [hunder]; rfl) hchecked.1

/-- A group that is resolved is a configured one. -/
theorem resolved_name {snapshot : RefSnapshot} {groups : SortedMap String GroupRoots}
    (h : refs.resolveGroups snapshot = .ok groups) {g : String × GroupRoots}
    (hg : g ∈ groups.entries) : g.1 ∈ refs.packfiles.keys ∧ g.1 ≠ "_retained" := by
  obtain ⟨group, hgroup, -⟩ :=
    RefsConfig.resolveGroups_group h (SortedMap.find?_eq_some_of_mem hg)
  refine ⟨SortedMap.mem_keys.mpr (by simp [hgroup]), fun hname => ?_⟩
  rw [hname, retained_not_configured (RefsConfig.resolveGroups_validate h)] at hgroup
  cases hgroup

/-- The lists have different names. -/
theorem lists_nodup {snapshot : RefSnapshot} {groups : SortedMap String GroupRoots} {cut : Cut}
    {work : Work} (hgroups : refs.resolveGroups snapshot = .ok groups) (hwork : work.Sorted)
    (hcut : groups.entries.foldlM (planGroup git) ⟨work, [], [], []⟩ = .ok cut) :
    ((cut.lists ++ [GroupList.mk "_retained" none []]).map GroupList.group).Nodup := by
  have hstart : (Cut.mk work [] [] []).Sorted :=
    ⟨hwork, by simp [HexLines], by simp [HexLines]⟩
  rw [(planGroups_ok hcut hstart).2, List.map_append, List.nodup_append]
  refine ⟨?_, by simp, ?_⟩
  · simpa [Function.comp_def, SortedMap.keys] using groups.nodup_keys
  · intro a ha b hb
    simp only [List.nil_append, List.map_map, Function.comp_def, List.mem_map] at ha
    obtain ⟨g, hg, rfl⟩ := ha
    cases List.mem_singleton.mp hb
    exact (resolved_name hgroups hg).2

/-- The families of a plan are cut from sorted lists with different names. -/
theorem plan_families
    (h : planBlocking git attempt input selected refs resources = .ok plan) :
    ∃ lists, (lists.map GroupList.group).Nodup ∧ plan.work.Sorted ∧
      FamiliesOf plan.input.db plan.work lists plan.families ∧ plan.outputs = [] := by
  obtain ⟨groups, indexed, work, cut, fss, hgroups, -, -, -, hwork, -, hcut, hfss, hplan⟩ :=
    planBlocking_ok h
  have hnames := lists_nodup hgroups hwork hcut
  have hstart : (Cut.mk work [] [] []).Sorted :=
    ⟨hwork, by simp [HexLines], by simp [HexLines]⟩
  rw [hplan]
  exact ⟨_, hnames, (planGroups_ok hcut hstart).1.close, familiesOf_lists hnames hfss, rfl⟩

/-- A family has the scope of its group; the retained family has none. -/
theorem plan_scope
    (h : planBlocking git attempt input selected refs resources = .ok plan) {f : Family}
    (hf : f ∈ plan.families) :
    f.audience = (refs.packfiles.find? f.group).map PackGroupConfig.kind ∧
      (f.dependencies = [] ↔ ∀ group, refs.packfiles.find? f.group = some group →
        group.subtract = []) := by
  obtain ⟨groups, indexed, work, cut, fss, hgroups, -, -, -, hwork, -, hcut, hfss, hplan⟩ :=
    planBlocking_ok h
  rw [hplan] at hf
  obtain ⟨g, hg, hof⟩ := (familiesOf_lists (lists_nodup hgroups hwork hcut) hfss).cuts f hf
  rw [hof.group, hof.audience, hof.dependencies]
  rcases List.mem_append.mp hg with hg | hg
  · have hstart : (Cut.mk work [] [] []).Sorted :=
      ⟨hwork, by simp [HexLines], by simp [HexLines]⟩
    rw [(planGroups_ok hcut hstart).2, List.nil_append] at hg
    obtain ⟨e, he, rfl⟩ := List.mem_map.mp hg
    obtain ⟨group, hgroup, hok⟩ :=
      RefsConfig.resolveGroups_group hgroups (SortedMap.find?_eq_some_of_mem he)
    obtain ⟨hkind, hdeps⟩ := RefsConfig.resolveGroup_scope hok
    simp [hgroup, hkind, hdeps]
  · cases List.mem_singleton.mp hg
    simp [retained_not_configured (RefsConfig.resolveGroups_validate hgroups)]

end Plan

end Walgit.PackSegments
