import Walgit.SegmentFamilies

/-!
# Conservation of objects

The families of a cut have together the objects of the selected packs: what no group has is
retained. This needs every list to stay in its file, and three names of groups put other lists
there.
-/
namespace Walgit.PackSegments

open ObjectLinks (ObjectDb)
open Streams

/-- Names of groups whose files the cut itself writes. -/
def reservedNames : List String := ["indexed", "groups", "all-groups"]

/-- The object is in the index of a selected pack. -/
def Selected (plan : SegmentPlan) (oid : Oid) : Prop :=
  ∃ p ∈ plan.selected, ∃ oids, plan.input.db.index p.checksum = some oids ∧ oid ∈ oids

/-- A step of any family. -/
def Steps (git : Git) (s s' : Scratch × SegmentPlan) : Prop :=
  ∃ tuning family, step git tuning s.1 s.2 family = .ok s'

/-- Nothing is lost or added between the selected packs and the families, or the outputs. -/
structure Conserves (git : Git) (plan : SegmentPlan) : Prop where
  union : ∀ oid, (∃ f ∈ plan.families, ∃ l ∈ f.objects, l.oid = oid) ↔ Selected plan oid
  typed : ∀ f ∈ plan.families, (f.kind = .history ∨ f.kind = .blobs) ∧
    ∀ l ∈ f.objects, ∃ object, plan.input.db.find l.oid = some object ∧
      (object.kind = .blob ↔ f.kind = .blobs)
  disjoint : ∀ f ∈ plan.families, ∀ f' ∈ plan.families, f.group = f'.group → f.kind ≠ f'.kind →
    ∀ l ∈ f.objects, ∀ l' ∈ f'.objects, l.oid ≠ l'.oid
  finish : ∀ scratch s, Relation.ReflTransGen (Steps git) (scratch, plan) s →
    ∀ done, finish s.1 s.2 = .ok done → ∀ oid,
      (∃ output ∈ done.outputs, ∃ file, s.1 output.path = some file ∧ oid ∈ file.oids) ↔
        Selected plan oid

section Lists

variable {git : Git}

/-- The lines of the inventory and the loop so far: every list is in its file, and the lines of
all lists are in the union. -/
structure Cut.Lists (inventory : List Line) (c : Cut) : Prop where
  indexed : c.work.sorted "indexed" = inventory
  inside : ∀ g ∈ c.lists, ∀ l ∈ c.work.sorted g.group, ∃ i ∈ inventory, i.text = l.oid
  bare : ∀ l ∈ c.union, l.hint = none
  union : ∀ oid, (∃ l ∈ c.union, l.oid = oid) ↔
    ∃ g ∈ c.lists, ∃ l ∈ c.work.sorted g.group, l.oid = oid

/-- A group with a name of its own adds its list. -/
theorem Cut.Lists.group {inventory : List Line} {c c' : Cut} {g : String × GroupRoots}
    (hc : c.Lists inventory) (h : planGroup git c g = .ok c') (hname : g.1 ≠ "indexed")
    (hnew : g.1 ∉ c.lists.map GroupList.group) : c'.Lists inventory := by
  obtain ⟨_, list, hwork, -, -, -, hinside, hunion, -, hlists⟩ := planGroup_ok h
  have hold : ∀ g' ∈ c.lists, c'.work.sorted g'.group = c.work.sorted g'.group := by
    intro g' hg'
    rw [hwork, Function.update_of_ne]
    exact fun heq => hnew (List.mem_map.mpr ⟨g', hg', heq⟩)
  have hself : c'.work.sorted g.1 = list := by rw [hwork, Function.update_self]
  refine ⟨?_, fun g' hg' l hl => ?_, fun l hl => ?_, fun oid => ?_⟩
  · rw [hwork, Function.update_of_ne hname.symm, hc.indexed]
  · rw [hlists] at hg'
    rcases List.mem_append.mp hg' with hg' | hg'
    · exact hc.inside g' hg' l (hold g' hg' ▸ hl)
    · cases List.mem_singleton.mp hg'
      exact hc.indexed ▸ hinside l (hself ▸ hl)
  · rw [hunion] at hl
    rcases List.mem_append.mp hl with hl | hl
    · exact hc.bare l hl
    · obtain ⟨l', -, rfl⟩ := List.mem_map.mp hl
      rfl
  · have hthere : (∃ g' ∈ c.lists, ∃ l ∈ c'.work.sorted g'.group, l.oid = oid) ↔
        ∃ g' ∈ c.lists, ∃ l ∈ c.work.sorted g'.group, l.oid = oid := by
      refine exists_congr fun g' => and_congr_right fun hg' => ?_
      rw [hold g' hg']
    rw [hunion, hlists]
    simp only [List.mem_append, or_and_right, exists_or, hc.union, hthere, List.mem_map,
      List.mem_singleton, exists_eq_left, hself]
    refine or_congr Iff.rfl ?_
    simp [Line.bare]

theorem Cut.Lists.groups {inventory : List Line} {entries : List (String × GroupRoots)}
    {c c' : Cut} (hc : c.Lists inventory)
    (h : entries.foldlM (planGroup git) c = .ok c')
    (hnames : ∀ g ∈ entries, g.1 ≠ "indexed")
    (hnodup : (c.lists.map GroupList.group ++ entries.map Prod.fst).Nodup) :
    c'.Lists inventory := by
  induction entries generalizing c with
  | nil =>
    cases h
    exact hc
  | cons g entries ih =>
    rw [List.foldlM_cons, Checks.bind_eq_ok] at h
    obtain ⟨mid, hgroup, hrest⟩ := h
    obtain ⟨_, list, -, -, -, -, -, -, -, hlists⟩ := planGroup_ok hgroup
    have hnew : g.1 ∉ c.lists.map GroupList.group := by
      intro hmem
      exact (List.nodup_append.mp hnodup).2.2 _ hmem _ (by simp) rfl
    refine ih (hc.group hgroup (hnames g List.mem_cons_self) hnew) hrest
      (fun g' hg' => hnames g' (List.mem_cons_of_mem g hg')) ?_
    simpa [hlists] using hnodup

/-- Lines that are oids only. -/
def Bare (lines : List Line) : Prop := ∀ l ∈ lines, l.hint = none

theorem Bare.text_eq {lines : List Line} (h : Bare lines) {l : Line} (hl : l ∈ lines) :
    l.text = l.oid := by
  rw [Line.text, h l hl]

theorem Bare.ascending {lines : List Line} (h : Bare lines) (hlines : Ascending Line.oid lines) :
    Ascending Line.text lines :=
  List.Pairwise.imp_of_mem (fun ha hb hlt => by rwa [h.text_eq ha, h.text_eq hb]) hlines

theorem Bare.sortUnique {lines : List Line} (h : Bare lines) :
    Bare (sortUnique Line.oid lines) := fun l hl => h l (mem_of_mem_sortUnique hl)

/-- Behind the loop the lists share the inventory with what is retained, if they are still in
their files. -/
theorem Cut.Lists.close {inventory : List Line} {c : Cut} (hc : c.Lists inventory)
    (hinventory : Ascending Line.oid inventory) (hbare : Bare inventory)
    (hnames : ∀ g ∈ c.lists, g.group ∉ reservedNames ∧ g.group ≠ "_retained") :
    c.close.sorted "indexed" = inventory ∧ ∀ oid,
      (∃ g ∈ c.lists ++ [⟨"_retained", none, []⟩], ∃ l ∈ c.close.sorted g.group, l.oid = oid) ↔
        ∃ i ∈ inventory, i.oid = oid := by
  set union := sortUnique Line.oid c.union with hunion
  set retained := onlyFirst Line.text inventory union with hretained
  have hfiles : c.close.sorted = Function.update (Function.update (Function.update c.work.sorted
      "groups" union) "_retained" retained) "all-groups" (sortUnique Line.oid c.fullUnion) := by
    have hindexed : Function.update c.work.sorted "groups" union "indexed" = inventory := by
      rw [Function.update_of_ne (by decide), hc.indexed]
    simp only [Cut.close, Work.sort, Work.writeSorted, Work.writeRaw, Function.update_self,
      ← hunion, hindexed, ← hretained]
  have hlist : ∀ g ∈ c.lists, c.close.sorted g.group = c.work.sorted g.group := by
    intro g hg
    obtain ⟨hname, hne⟩ := hnames g hg
    simp only [reservedNames, List.mem_cons, List.not_mem_nil, or_false, not_or] at hname
    rw [hfiles, Function.update_of_ne hname.2.2, Function.update_of_ne hne,
      Function.update_of_ne hname.2.1]
  have hkept : c.close.sorted "_retained" = retained := by
    rw [hfiles, Function.update_of_ne (by decide), Function.update_self]
  refine ⟨?_, fun oid => ?_⟩
  · rw [hfiles, Function.update_of_ne (by decide), Function.update_of_ne (by decide),
      Function.update_of_ne (by decide), hc.indexed]
  · have hlines : Bare union := Bare.sortUnique hc.bare
    have hleft : (∃ l ∈ retained, l.oid = oid) ↔
        (∃ i ∈ inventory, i.oid = oid) ∧ ¬∃ g ∈ c.lists, ∃ l ∈ c.work.sorted g.group,
          l.oid = oid := by
      have hkeys : (∃ u ∈ union, u.oid = oid) ↔
          ∃ g ∈ c.lists, ∃ l ∈ c.work.sorted g.group, l.oid = oid :=
        exists_mem_sortUnique.trans (hc.union oid)
      rw [← hkeys]
      constructor
      · rintro ⟨l, hl, rfl⟩
        obtain ⟨hmem, hnot⟩ := (mem_onlyFirst (hbare.ascending hinventory)
          (hlines.ascending (sortUnique_ascending _))).mp hl
        refine ⟨⟨l, hmem, rfl⟩, fun ⟨u, hu, heq⟩ => hnot u hu ?_⟩
        rw [hlines.text_eq hu, hbare.text_eq hmem, heq]
      · rintro ⟨⟨i, hi, rfl⟩, hnot⟩
        refine ⟨i, (mem_onlyFirst (hbare.ascending hinventory)
          (hlines.ascending (sortUnique_ascending _))).mpr ⟨hi, fun u hu heq => ?_⟩, rfl⟩
        rw [hlines.text_eq hu, hbare.text_eq hi] at heq
        exact hnot ⟨u, hu, heq⟩
    have hgroups : (∃ g ∈ c.lists ++ [GroupList.mk "_retained" none []],
        ∃ l ∈ c.close.sorted g.group, l.oid = oid) ↔
        (∃ g ∈ c.lists, ∃ l ∈ c.work.sorted g.group, l.oid = oid) ∨
          ∃ l ∈ retained, l.oid = oid := by
      simp only [List.mem_append, or_and_right, exists_or, List.mem_singleton, exists_eq_left,
        hkept]
      refine or_congr (exists_congr fun g => and_congr_right fun hg => ?_) Iff.rfl
      rw [hlist g hg]
    rw [hgroups, hleft]
    constructor
    · rintro (⟨g, hg, l, hl, rfl⟩ | h)
      · obtain ⟨i, hi, heq⟩ := hc.inside g hg l hl
        exact ⟨i, hi, by rw [← hbare.text_eq hi, heq]⟩
      · exact h.1
    · intro h
      by_cases hin : ∃ g ∈ c.lists, ∃ l ∈ c.work.sorted g.group, l.oid = oid
      · exact Or.inl hin
      · exact Or.inr ⟨h, hin⟩

end Lists

section Conservation

variable {git : Git}

/-- The lines of some indexes. -/
theorem mem_indexLines {α : Type} {checksum : α → String} {db : ObjectDb} {packs : List α}
    {indexed : List (List Line)}
    (h : packs.mapM (fun p => indexLines db (checksum p)) = .ok indexed) :
    Bare indexed.flatten ∧ ∀ oid, (∃ l ∈ indexed.flatten, l.oid = oid) ↔
      ∃ p ∈ packs, ∃ oids, db.index (checksum p) = some oids ∧ oid ∈ oids := by
  have hlines : ∀ {p : α} {lines : List Line}, indexLines db (checksum p) = .ok lines →
      ∃ oids, db.index (checksum p) = some oids ∧ lines = oids.map Line.bare := by
    intro p lines hlines
    unfold indexLines at hlines
    split at hlines
    · cases hlines
    · rename_i oids hindex
      cases hlines
      exact ⟨oids, hindex, rfl⟩
  refine ⟨fun l hl => ?_, fun oid => ⟨?_, ?_⟩⟩
  · obtain ⟨lines, hmem, hl⟩ := List.mem_flatten.mp hl
    obtain ⟨p, -, hp⟩ := (Checks.mapM_ok h).2.2 lines hmem
    obtain ⟨oids, -, rfl⟩ := hlines hp
    obtain ⟨oid, -, rfl⟩ := List.mem_map.mp hl
    rfl
  · rintro ⟨l, hl, rfl⟩
    obtain ⟨lines, hmem, hl⟩ := List.mem_flatten.mp hl
    obtain ⟨p, hp, hok⟩ := (Checks.mapM_ok h).2.2 lines hmem
    obtain ⟨oids, hindex, rfl⟩ := hlines hok
    obtain ⟨oid, hoid, rfl⟩ := List.mem_map.mp hl
    exact ⟨p, hp, oids, hindex, hoid⟩
  · rintro ⟨p, hp, oids, hindex, hoid⟩
    obtain ⟨lines, hmem, hok⟩ := Checks.mapM_ok_mem h hp
    obtain ⟨oids', hindex', rfl⟩ := hlines hok
    cases hindex.symm.trans hindex'
    exact ⟨.bare oid, List.mem_flatten_of_mem hmem (List.mem_map_of_mem hoid), rfl⟩

/-- A step adds outputs and marks its family. -/
theorem step_ok {tuning : Tuning} {scratch scratch' : Scratch} {plan plan' : SegmentPlan}
    {family : ℕ} (h : step git tuning scratch plan family = .ok (scratch', plan')) :
    plan' = plan ∧ scratch' = scratch ∨ ∃ item files outputs,
      plan.families[family]? = some item ∧ item.completed = false ∧
      git.packObjects tuning plan.resources item.objects = .ok files ∧
      files.mapM (stepOutput tuning plan item) = .ok outputs ∧
      scratch' = scratch.add plan.dir item files ∧
      plan' = { plan with
        families := plan.families.set family { item with completed := true }
        outputs := plan.outputs ++ outputs } := by
  obtain ⟨_, -, h⟩ := Checks.bind_eq_ok.mp h
  split at h
  · cases h
  · rename_i item hitem
    split_ifs at h with hdone
    · cases h
      exact Or.inl ⟨rfl, rfl⟩
    · obtain ⟨files, hfiles, h⟩ := Checks.bind_eq_ok.mp h
      obtain ⟨outputs, houtputs, h⟩ := Checks.bind_eq_ok.mp h
      cases h
      exact Or.inr ⟨item, files, outputs, hitem, by simpa using hdone, hfiles, houtputs, rfl, rfl⟩

theorem steps_keep {s s' : Scratch × SegmentPlan} (h : Relation.ReflTransGen (Steps git) s s') :
    s'.2.work = s.2.work ∧ s'.2.selected = s.2.selected ∧ s'.2.input = s.2.input := by
  induction h with
  | refl => exact ⟨rfl, rfl, rfl⟩
  | tail _ hstep ih =>
    obtain ⟨tuning, family, hok⟩ := hstep
    rcases step_ok hok with ⟨hplan, -⟩ | ⟨item, files, outputs, -, -, -, -, -, hplan⟩
    · rw [hplan]
      exact ih
    · rw [hplan]
      exact ih

/-- A cut is finished exactly with the oids of the inventory. -/
theorem finish_ok {scratch : Scratch} {plan : SegmentPlan} {done : SegmentedInput}
    {inventory : List Line} (hinventory : plan.work.sorted "indexed" = inventory)
    (hbare : Bare inventory) (h : finish scratch plan = .ok done) :
    done.outputs = plan.outputs ∧ ∀ oid,
      (∃ output ∈ plan.outputs, ∃ file, scratch output.path = some file ∧ oid ∈ file.oids) ↔
        ∃ i ∈ inventory, i.oid = oid := by
  simp only [finish, Checks.guard_ok, Checks.bind_eq_ok, pure, Except.pure] at h
  obtain ⟨-, produced, hproduced, hsame, hdone⟩ := h
  cases hdone
  refine ⟨rfl, fun oid => ?_⟩
  have hlines : ∀ {output : SegmentOutput} {lines : List Line},
      outputLines scratch output = .ok lines →
        ∃ file, scratch output.path = some file ∧ lines = file.oids.map Line.bare := by
    intro output lines hlines
    unfold outputLines at hlines
    split at hlines
    · cases hlines
    · rename_i file hfile
      cases hlines
      exact ⟨file, hfile, rfl⟩
  have hout : Bare produced.flatten := by
    intro l hl
    obtain ⟨lines, hmem, hl⟩ := List.mem_flatten.mp hl
    obtain ⟨output, -, hok⟩ := (Checks.mapM_ok hproduced).2.2 lines hmem
    obtain ⟨file, -, rfl⟩ := hlines hok
    obtain ⟨o, -, rfl⟩ := List.mem_map.mp hl
    rfl
  have hkeys : inventory.map Line.text = (sortUnique Line.oid produced.flatten).map Line.text := by
    have hfiles := differences_eq_nil.mp (not_not.mp hsame)
    simpa [Work.sort, Work.writeSorted, Work.writeRaw, hinventory] using hfiles
  have hmem : (∃ i ∈ inventory, i.oid = oid) ↔ ∃ l ∈ produced.flatten, l.oid = oid := by
    have hoids : inventory.map Line.oid = (sortUnique Line.oid produced.flatten).map Line.oid := by
      rw [← List.map_congr_left fun i hi => hbare.text_eq hi, hkeys]
      exact List.map_congr_left fun l hl => (Bare.sortUnique hout).text_eq hl
    rw [← List.mem_map, hoids, List.mem_map]
    exact exists_mem_sortUnique
  rw [hmem]
  constructor
  · rintro ⟨output, ho, file, hfile, hoid⟩
    obtain ⟨lines, hl, hok⟩ := Checks.mapM_ok_mem hproduced ho
    obtain ⟨file', hfile', rfl⟩ := hlines hok
    cases hfile.symm.trans hfile'
    exact ⟨.bare oid, List.mem_flatten_of_mem hl (List.mem_map_of_mem hoid), rfl⟩
  · rintro ⟨l, hl, rfl⟩
    obtain ⟨lines, hmem, hl⟩ := List.mem_flatten.mp hl
    obtain ⟨output, ho, hok⟩ := (Checks.mapM_ok hproduced).2.2 lines hmem
    obtain ⟨file, hfile, rfl⟩ := hlines hok
    obtain ⟨o, hoid, rfl⟩ := List.mem_map.mp hl
    exact ⟨output, ho, file, hfile, hoid⟩

variable [Text.CharTables] {attempt : String} {input : MaintenanceInput} {selected : List String}
  {refs : RefsConfig} {resources : Resources} {plan : SegmentPlan}

/-- A cut conserves the objects of the selected packs, if no group has the name of one of its own
files. -/
theorem planBlocking_conserves (hnames : ∀ name ∈ refs.packfiles.keys, name ∉ reservedNames)
    (h : planBlocking git attempt input selected refs resources = .ok plan) :
    Conserves git plan := by
  obtain ⟨groups, indexed, work, cut, fss, hgroups, -, -, hindexed, hwork, hfile, hcut, hfss,
    hplan⟩ := planBlocking_ok h
  obtain ⟨hbare, hselected⟩ := mem_indexLines hindexed
  set inventory := sortUnique Line.oid indexed.flatten with hinventory
  have hfirst : (Cut.mk work [] [] []).Lists inventory := ⟨hfile, by simp, by simp, by simp⟩
  have hkeys : ∀ g ∈ groups.entries, g.1 ∉ reservedNames ∧ g.1 ≠ "_retained" := by
    intro g hg
    obtain ⟨hkey, hne⟩ := resolved_name hgroups hg
    exact ⟨hnames _ hkey, hne⟩
  have hlists := hfirst.groups hcut
    (fun g hg heq => (hkeys g hg).1 (by simp [reservedNames, heq])) groups.nodup_keys
  have hstart : (Cut.mk work [] [] []).Sorted :=
    ⟨hwork, by simp [HexLines], by simp [HexLines]⟩
  have hcutlists := (planGroups_ok hcut hstart).2
  have hnamed : ∀ g ∈ cut.lists, g.group ∉ reservedNames ∧ g.group ≠ "_retained" := by
    intro g hg
    rw [hcutlists, List.nil_append] at hg
    obtain ⟨e, he, rfl⟩ := List.mem_map.mp hg
    exact hkeys e he
  have hbareInventory : Bare inventory := Bare.sortUnique hbare
  obtain ⟨hclosed, hunion⟩ := hlists.close (sortUnique_ascending _) hbareInventory hnamed
  have hfamilies := familiesOf_lists (lists_nodup hgroups hwork hcut) hfss
  have hinput := planBlocking_input h
  have hparts : plan.families = fss.flatten ∧ plan.work = cut.close := by
    rw [hplan]
    exact ⟨rfl, rfl⟩
  have hindex : ∀ oid, (∃ i ∈ inventory, i.oid = oid) ↔ Selected plan oid := by
    intro oid
    rw [Selected, hinput, ← hselected, hinventory]
    exact exists_mem_sortUnique
  refine ⟨fun oid => ?_, fun f hf => ⟨?_, fun l hl => ?_⟩, fun f hf f' hf' _ hne l hl l' hl' => ?_,
    fun scratch s hsteps done hdone oid => ?_⟩
  · rw [hparts.1, hfamilies.union, hunion, hindex]
  · obtain ⟨g, -, hcut⟩ := hfamilies.cuts f (hparts.1 ▸ hf)
    exact hcut.kind
  · rw [hinput]
    exact hfamilies.typed (hparts.1 ▸ hf) hl
  · exact hfamilies.disjoint (hparts.1 ▸ hf) (hparts.1 ▸ hf') hne hl hl'
  · have hkept := (steps_keep hsteps).1
    obtain ⟨houtputs, hoids⟩ := finish_ok (by rw [hkept, hparts.2, hclosed]) hbareInventory hdone
    rw [houtputs, hoids, hindex]

end Conservation

section Runs

open Text

attribute [local instance] Text.asciiTables

/-- Two blobs in one pack. -/
def twoBlobs : ObjectDb where
  find id := if id = repeated 'b' || id = repeated 'c' then some ⟨10, .blob⟩ else none
  index id := if id = repeated 'a' then some [repeated 'b', repeated 'c'] else none
  missing _ := "not found"

/-- Some blobs are tagged. -/
def blobInput (tags : List Ref) : MaintenanceInput where
  root := ["scratch"]
  format := .sha1
  db := twoBlobs
  packs := [{ checksum := repeated 'a' }]
  refs := ⟨"sha1", "refs/heads/main", tags⟩
  distinct := List.nodup_singleton _
  indexed p hp oids hindex := by
    cases List.mem_singleton.mp hp
    cases hindex
    decide

/-- Git where all roots are blobs. -/
def blobGit : Git where
  revList included excluded := .ok ((included.filter fun oid =>
    oid ∉ excluded && fromHex oid = some oid).map fun oid => ⟨oid, some ""⟩)
  revList_oids included excluded lines h l hl := by
    cases h
    obtain ⟨oid, hoid, rfl⟩ := List.mem_map.mp hl
    have hkept := (List.mem_filter.mp hoid).2
    rw [Bool.and_eq_true, decide_eq_true_eq, decide_eq_true_eq] at hkept
    exact hkept.2
  packObjects _ _ lines := .ok (if lines = [] then [] else
    [⟨repeated 'd', 120, 80, true, lines.map Line.oid⟩])
  packObjects_ok _ _ lines files h := by
    cases h
    split_ifs with hnil
    · subst hnil
      exact ⟨by simp, by simp, fun h => absurd rfl h, by simp⟩
    · exact ⟨by simp, by simpa using by decide, fun _ => by simp, by simp⟩

/-- One group, of all tags. -/
def tagGroup (name : String) : RefsConfig where
  advertise := []
  packfiles := ⟨[(name, ⟨.code, ["refs/tags/*"], []⟩)], List.pairwise_singleton _ _⟩

def planBlobs (name : String) : Except SegmentError SegmentPlan :=
  planBlocking blobGit "1" (blobInput [⟨"refs/tags/b", repeated 'b', ""⟩]) [repeated 'a']
    (tagGroup name) ⟨1, 1, 1⟩

theorem planBlobs_main : ∃ plan, planBlobs "main" = .ok plan := by
  have hsome : (planBlobs "main").toOption.isSome := by decide
  obtain ⟨plan, hplan⟩ := Option.isSome_iff_exists.mp hsome
  exact ⟨plan, Checks.toOption_eq_some.mp hplan⟩

theorem planBlocking_conserves_main :
    ∃ plan, planBlobs "main" = .ok plan ∧ Conserves blobGit plan := by
  obtain ⟨plan, hok⟩ := planBlobs_main
  exact ⟨plan, hok, planBlocking_conserves (by decide) hok⟩

/-- A group `indexed` writes its list over the inventory, and the blob outside it is lost. -/
theorem planBlocking_loses_indexed :
    ∃ plan, planBlobs "indexed" = .ok plan ∧ ¬Conserves blobGit plan := by
  have hmap : ((planBlobs "indexed").toOption.map fun p =>
      (p.families.map fun f => f.objects.map Line.oid, p.selected)) =
      some ([[repeated 'b'], [repeated 'b']], [{ checksum := repeated 'a' }]) := by decide
  obtain ⟨plan, hplan, hparts⟩ := Option.map_eq_some_iff.mp hmap
  have hok := Checks.toOption_eq_some.mp hplan
  obtain ⟨hfamilies, hselected⟩ := Prod.mk.inj hparts
  have hinput := planBlocking_input hok
  refine ⟨plan, hok, fun h => ?_⟩
  have hin : Selected plan (repeated 'c') := by
    rw [Selected, hinput, hselected]
    exact ⟨_, List.mem_singleton_self _, [repeated 'b', repeated 'c'], by decide, by decide⟩
  obtain ⟨f, hf, l, hl, hoid⟩ := (h.union _).mpr hin
  have hmem : f.objects.map Line.oid ∈ [[repeated 'b'], [repeated 'b']] :=
    hfamilies ▸ List.mem_map_of_mem hf
  have hlist : f.objects.map Line.oid = [repeated 'b'] := by simpa using hmem
  have hmem : l.oid ∈ [repeated 'b'] := hlist ▸ List.mem_map_of_mem hl
  rw [hoid] at hmem
  exact absurd hmem (by decide)

end Runs

end Walgit.PackSegments
