import Walgit.Fetch

/-!
# What a fetch sends

The set of an enumeration that missed nothing, with what the client has, is closed below the
wants: first for the commits of the walk, parents before children, then for the rest. Fault
rounds only change where an object is read from.
-/
namespace Walgit.UploadPack

/-- Everything below the object is in the set, or reachable from the haves. -/
def Complete (db : Odb) (haves set : List Oid) (x : Oid) : Prop :=
  ∀ y, db.Reaches x y → db.has y → y ∈ set ∨ db.Reached haves y

section Complete

variable {db : Odb} {haves set : List Oid} {x : Oid}

theorem Complete.of_links (hx : db.has x → x ∈ set ∨ db.Reached haves x)
    (hlinks : ∀ y, db.Link x y → Complete db haves set y) : Complete db haves set x := by
  intro y hreach hy
  rcases Relation.ReflTransGen.cases_head hreach with rfl | ⟨z, hlink, hzy⟩
  · exact hx hy
  · exact hlinks z hlink y hzy hy

theorem Complete.of_held (h : db.Reached haves x) : Complete db haves set x :=
  fun _ hreach _ => Or.inr (h.trans hreach)

theorem Complete.trans {y : Oid} (h : Complete db haves set x) (hxy : db.Reaches x y) :
    Complete db haves set y :=
  fun _ hreach => h _ (hxy.trans hreach)

/-- An object without links. -/
theorem Complete.of_mem {o : GitObject} (hmem : x ∈ set) (hfind : db.find x = some o)
    (hlinks : o.links = []) : Complete db haves set x := by
  refine .of_links (fun _ => Or.inl hmem) fun y ⟨o', ho', hy⟩ => ?_
  rw [hfind, Option.some.injEq] at ho'
  rw [← ho', hlinks] at hy
  cases hy

theorem Complete.of_absent (hfind : db.find x = none) : Complete db haves set x := by
  refine .of_links (fun hx => ?_) fun y ⟨o, ho, _⟩ => ?_
  · simp [Odb.has, hfind] at hx
  · rw [hfind] at ho
    cases ho

/-- An object is complete if it is so when it exists. -/
theorem Complete.of_find (h : ∀ o, db.find x = some o → Complete db haves set x) :
    Complete db haves set x := by
  cases hfind : db.find x with
  | none => exact .of_absent hfind
  | some o => exact h o hfind

end Complete

section Parents

variable {db : Odb} {wants haves set : List Oid} {c : Oid}

theorem mem_of_entryAt {old : Old} {name : String} {o : TreeEntry}
    (h : entryAt (old.entries db) name = some o) :
    ∃ id entries, old = .tree id ∧ db.find id = some (.tree entries) ∧ o ∈ entries := by
  have hmem : o ∈ old.entries db := List.mem_reverse.mp (List.mem_of_find?_eq_some h)
  cases old with
  | absent => cases hmem
  | tree id =>
    cases hfind : treeEntries db id with
    | none => simp [Old.entries, hfind] at hmem
    | some entries =>
      rw [Old.entries, hfind, Option.getD_some] at hmem
      exact ⟨id, entries, rfl, find_of_mem_treeEntries hfind hmem, hmem⟩

/-- The parents' subtrees at the place of a diff are reachable from the parents. -/
theorem DiffedAt.old_reached {t : Oid} {olds : List Old} (h : DiffedAt db c t olds) {o : Oid}
    (ho : Old.tree o ∈ olds) : InParent db c o := by
  induction h generalizing o with
  | @root root parents hfind =>
    obtain ⟨p, hp, hold⟩ := List.mem_map.mp ho
    split at hold
    · rename_i root' parents' hparent
      cases hold
      exact ⟨p, Odb.mem_parentsOf.mpr ⟨root, parents, hfind, hp⟩,
        .single ⟨_, hparent, List.mem_cons_self⟩⟩
    · cases hold
  | sub ht hfind he hmode hchanged ih =>
    obtain ⟨old, hold, hsub⟩ := List.mem_map.mp ho
    unfold subOld at hsub
    split at hsub
    · rename_i entry hentry
      split_ifs at hsub with htree
      cases hsub
      obtain ⟨id, entries', rfl, hfind', hmem⟩ := mem_of_entryAt hentry
      obtain ⟨p, hp, hreach⟩ := ih hold
      exact ⟨p, hp, hreach.tail (.of_entry hfind' hmem (by simp [htree]))⟩
    · cases hsub

theorem DiffedAt.kind (hclear : Clear db wants haves) (hc : db.Reached wants c) {t : Oid}
    {olds : List Old} (h : DiffedAt db c t olds) {o : GitObject} (hfind : db.find t = some o)
    (hheld : ¬ db.Reached haves t) : o.kind = .tree := by
  cases h with
  | root hcommit => exact hclear.kinds c _ t .tree o hc hcommit List.mem_cons_self hfind hheld
  | @sub t olds entries e ht htree he hmode hchanged =>
    refine hclear.kinds t _ e.oid .tree o (hc.trans ht.reaches) htree ?_ hfind hheld
    exact List.mem_map.mpr ⟨e, he, by rw [hmode]; rfl⟩

/-- An entry that the parents have, too, is complete with them. -/
theorem DiffedAt.complete_unchanged (hclear : Clear db wants haves) (hc : db.Reached wants c)
    (hparents : ∀ p ∈ db.parentsOf c, Complete db haves set p) {t : Oid} {olds : List Old}
    {entries : List TreeEntry} {e : TreeEntry} (h : DiffedAt db c t olds)
    (hfind : db.find t = some (.tree entries)) (he : e ∈ entries) (hmode : e.mode ≠ .commit)
    (hsame : unchanged db olds e) : Complete db haves set e.oid := by
  rw [unchanged, Bool.and_eq_true, List.all_eq_true] at hsame
  obtain ⟨old, hold⟩ := List.exists_mem_of_ne_nil olds (by simpa using hsame.1)
  obtain ⟨e', he', hoid⟩ := (Option.any_eq_true _ _).mp (hsame.2 old hold)
  rw [decide_eq_true_eq] at hoid
  obtain ⟨id, entries', rfl, hfind', hmem'⟩ := mem_of_entryAt he'
  obtain ⟨p, hp, hreach⟩ := h.old_reached hold
  by_cases hgitlink : e'.mode = .commit
  · -- A gitlink of the parents with the same id would be named under two kinds.
    by_cases hheld : db.Reached haves e.oid
    · exact .of_held hheld
    · refine .of_find fun o ho => ?_
      have hkind := hclear.kinds t _ e.oid e.mode.kind o (hc.trans h.reaches) hfind
        (List.mem_map_of_mem (f := fun e => (e.oid, e.mode.kind)) he) ho hheld
      have hid : db.Reached wants id := (hc.link (.of_parent hp)).trans hreach
      have hkind' := hclear.kinds id _ e.oid e'.mode.kind o hid hfind'
        (List.mem_map.mpr ⟨e', hmem', by rw [hoid]⟩) ho hheld
      rw [hgitlink, hkind] at hkind'
      cases hm : e.mode <;> simp [hm, EntryMode.kind] at hkind' hmode
  · exact (hparents p hp).trans (hoid ▸ hreach.tail (.of_entry hfind' hmem' hgitlink))

end Parents

section Enumerations

/-- What an enumeration that missed nothing leaves. -/
structure Enumeration (db : Odb) (wants haves : List Oid) (loc : Odb) (start : Wanted)
    (set : List Oid) : Prop where
  led : ∀ t ∈ start.commits, LedTo db wants t
  sorted : ∀ w ∈ wants, Sorted loc w start
  taken : ∀ y ∈ start.found.set, Settled db wants haves loc NoDiffs start.found.set y
  subset : start.found.set ⊆ set
  settled : ∀ y ∈ set, Settled db wants haves loc (Diffs db wants haves) set y
  walked : ∀ c, (∃ t ∈ start.commits, db.Ancestor t c) → (∀ h ∈ haves, ¬ db.Ancestor h c) →
    c ∈ set

variable {db : Odb} {wants haves : List Oid} {loc : Odb} {start : Wanted} {set : List Oid}
variable (hacyclic : WellFounded fun y x => db.Link x y) (hwithin : loc.Within db)
variable (hclear : Clear db wants haves)
variable (henum : Enumeration db wants haves loc start set)

include hacyclic hclear henum in
/-- A taken tree of a commit is complete when the parents are, by induction on the tree. -/
theorem Enumeration.complete_tree {c : Oid} (hsent : Sent db wants haves c)
    (hparents : ∀ p ∈ db.parentsOf c, Complete db haves set p) {t : Oid} {olds : List Old}
    (h : DiffedAt db c t olds) (hmem : t ∈ set) : Complete db haves set t := by
  have hc := hsent.reached
  induction t using hacyclic.induction generalizing olds with
  | _ t ih =>
    by_cases hheld : db.Reached haves t
    · exact .of_held hheld
    refine .of_find fun o ho => ?_
    have hkind := h.kind hclear hc ho hheld
    cases o with
    | commit | tag | blob => cases hkind
    | tree entries =>
      obtain ⟨⟨olds', hdiffed, hentries⟩, -⟩ := (henum.settled t hmem).resolve_left hheld _ ho
      refine .of_links (fun _ => Or.inl hmem) fun y ⟨o, ho', hy⟩ => ?_
      rw [ho, Option.some.injEq] at ho'
      subst ho'
      obtain ⟨e, he, rfl⟩ := List.mem_map.mp hy
      obtain ⟨he, hmode⟩ := List.mem_filter.mp he
      rw [decide_eq_true_eq] at hmode
      by_cases hsame : unchanged db olds e
      · exact h.complete_unchanged hclear hc hparents ho he hmode hsame
      rcases hentries e he hmode with hsame' | htaken
      · -- The tree was taken for another commit, where the entry is unchanged.
        rcases hdiffed with rfl | ⟨c', hsent', h'⟩
        · simp [unchanged] at hsame'
        · intro x hreach hx
          rcases hclear.trees c c' t olds olds' entries e x hsent hsent' h h' ho he hmode hsame
            hsame' hreach hx with hheld | ⟨p, hp, hpx⟩
          · exact Or.inr hheld
          · exact hparents p hp x hpx hx
      · by_cases htree : e.mode = .tree
        · exact ih e.oid (.of_entry ho he hmode) (.sub h ho he htree hsame) htaken
        · refine .of_find fun o' ho' => ?_
          by_cases hheld' : db.Reached haves e.oid
          · exact .of_held hheld'
          · have hkind' := hclear.kinds t _ e.oid e.mode.kind o' (hc.trans h.reaches) ho
              (List.mem_map_of_mem (f := fun e => (e.oid, e.mode.kind)) he) ho' hheld'
            have hblob : o' = .blob := by
              cases hm : e.mode <;> cases o' <;>
                simp_all [EntryMode.kind, GitObject.kind]
            exact .of_mem htaken ho' (by rw [hblob]; rfl)

include henum in
theorem Enumeration.sent {c : Oid} (hwalk : ∃ t ∈ start.commits, db.Ancestor t c)
    (hhaves : ∀ h ∈ haves, ¬ db.Ancestor h c) : Sent db wants haves c := by
  obtain ⟨t, ht, htc⟩ := hwalk
  obtain ⟨w, hw, hwt⟩ := henum.led t ht
  exact ⟨⟨w, hw, t, hwt, htc⟩, hhaves⟩

theorem tagged_within (hwithin : loc.Within db) {c : Oid} (h : Tagged loc wants c) :
    Tagged db wants c := by
  obtain ⟨w, hw, hwc⟩ := h
  exact ⟨w, hw, Relation.TransGen.mono (fun x _ ht => hwithin x _ ht) w c hwc⟩

include hacyclic hwithin hclear henum in
/-- The commits of the walk are complete, by induction on the commit. -/
theorem Enumeration.complete_commit {c root : Oid} {parents : List Oid}
    (hwalk : ∃ t ∈ start.commits, db.Ancestor t c)
    (hfind : db.find c = some (.commit root parents)) : Complete db haves set c := by
  induction c using hacyclic.induction generalizing root parents with
  | _ c ih =>
    by_cases hhidden : ∃ h ∈ haves, db.Ancestor h c
    · obtain ⟨h, hh, hhc⟩ := hhidden
      exact .of_held ⟨h, hh, .of_ancestor hhc⟩
    have hhaves : ∀ h ∈ haves, ¬ db.Ancestor h c := fun h hh hhc => hhidden ⟨h, hh, hhc⟩
    have hsent := henum.sent hwalk hhaves
    have hmem := henum.walked c hwalk hhaves
    by_cases hheld : db.Reached haves c
    · exact .of_held hheld
    have hparents : ∀ p ∈ db.parentsOf c, Complete db haves set p := by
      intro p hp
      refine .of_find fun o ho => ?_
      by_cases hheldp : db.Reached haves p
      · exact .of_held hheldp
      obtain ⟨root', parents', hfind', hp'⟩ := Odb.mem_parentsOf.mp hp
      have hkind := hclear.kinds c _ p .commit o hsent.reached hfind'
        (List.mem_cons_of_mem _ (List.mem_map_of_mem (f := fun p => (p, Kind.commit)) hp')) ho hheldp
      cases o with
      | tree | tag | blob => cases hkind
      | commit root parents =>
        obtain ⟨t, ht, htc⟩ := hwalk
        exact ih p (.of_parent hp) ⟨t, ht, htc.tail hp⟩ ho
    obtain ⟨hsettled, -⟩ := (henum.settled c hmem).resolve_left hheld _ hfind
    refine .of_links (fun _ => Or.inl hmem) fun y ⟨o, ho, hy⟩ => ?_
    rw [hfind, Option.some.injEq] at ho
    subst ho
    rcases List.mem_cons.mp hy with rfl | hy
    · rcases hsettled with htagged | ⟨hroot, -⟩
      · intro x hreach hx
        rcases hclear.tags c y parents x (tagged_within hwithin htagged) hfind hheld hreach hx with
          hheldx | ⟨p, hp, hpx⟩
        · exact Or.inr hheldx
        · exact hparents p hp x hpx hx
      · exact henum.complete_tree hacyclic hclear hsent hparents (.root hfind) hroot
    · exact hparents y (Odb.mem_parentsOf.mpr ⟨root, parents, hfind, hy⟩)

include hacyclic hwithin hclear henum in
/-- What was taken while the wants were sorted is complete, by induction on the object. -/
theorem Enumeration.complete_start {y : Oid} (hy : y ∈ start.found.set) :
    Complete db haves set y := by
  induction y using hacyclic.induction with
  | _ y ih =>
    have hmem := henum.subset hy
    by_cases hheld : db.Reached haves y
    · exact .of_held hheld
    refine .of_find fun o ho => ?_
    obtain ⟨hsettled, hlocal⟩ := (henum.taken y hy).resolve_left hheld o ho
    cases o with
    | blob => exact .of_mem hmem ho rfl
    | commit root parents =>
      obtain ⟨w, hw, hwy⟩ := hsettled.resolve_right fun ⟨_, _, hdiffed⟩ => hdiffed
      have htip := (henum.sorted w hw).tags y root parents hwy.to_reflTransGen
        (hlocal.resolve_left (by simp))
      exact henum.complete_commit hacyclic hwithin hclear ⟨y, htip, .refl⟩ ho
    | tree entries =>
      obtain ⟨olds, hdiffed, hentries⟩ := hsettled
      obtain rfl : olds = [] := hdiffed.resolve_right id
      refine .of_links (fun _ => Or.inl hmem) fun z hlink => ?_
      have ⟨o, ho', hz⟩ := hlink
      rw [ho, Option.some.injEq] at ho'
      subst ho'
      obtain ⟨e, he, rfl⟩ := List.mem_map.mp hz
      obtain ⟨he, hmode⟩ := List.mem_filter.mp he
      exact ih e.oid hlink ((hentries e he (by simpa using hmode)).resolve_left (by simp [unchanged]))
    | tag target =>
      refine .of_links (fun _ => Or.inl hmem) fun z hlink => ?_
      have ⟨o, ho', hz⟩ := hlink
      rw [ho, Option.some.injEq] at ho'
      subst ho'
      obtain rfl := List.mem_singleton.mp hz
      exact ih z hlink hsettled

include hacyclic hwithin hclear henum in
theorem Enumeration.complete {w : Oid} (hw : w ∈ wants) : Complete db haves set w := by
  rcases (henum.sorted w hw).taken with ⟨htip, hcommit⟩ | htaken
  · refine .of_find fun o ho => ?_
    by_cases hheld : db.Reached haves w
    · exact .of_held hheld
    have hmem := henum.walked w ⟨w, htip, .refl⟩ fun h hh hhw => hheld ⟨h, hh, .of_ancestor hhw⟩
    obtain ⟨-, hlocal⟩ := (henum.settled w hmem).resolve_left hheld o ho
    rcases hlocal with rfl | hlocal
    · exact .of_mem hmem ho rfl
    · cases o with
      | commit root parents =>
        exact henum.complete_commit hacyclic hwithin hclear ⟨w, htip, .refl⟩ ho
      | tree | tag | blob => cases hcommit _ hlocal
  · exact henum.complete_start hacyclic hwithin hclear htaken

end Enumerations

section Rounds

/-- A request of a client that has whole histories and wants whole histories. -/
structure Plain (req : UploadPackRequest) : Prop where
  shallow : req.shallow = []
  deepen : req.deepen = none
  filter : req.filter = none

theorem Settled.mono_diffed {db : Odb} {wants haves : List Oid} {loc : Odb}
    {diffed diffed' : Oid → List Old → Prop} {set : List Oid} {y : Oid}
    (h : Settled db wants haves loc diffed set y) (hdiffed : ∀ t olds, diffed t olds → diffed' t olds) :
    Settled db wants haves loc diffed' set y := by
  refine h.imp_right fun hsettled o ho => ?_
  obtain ⟨has, hlocal⟩ := hsettled o ho
  refine ⟨?_, hlocal⟩
  cases o with
  | commit root parents =>
    exact has.imp_right fun ⟨hroot, olds, hd⟩ => ⟨hroot, olds, hdiffed root olds hd⟩
  | tree entries =>
    obtain ⟨olds, hd, hentries⟩ := has
    exact ⟨olds, hd.imp_right (hdiffed y olds), hentries⟩
  | tag target => exact has
  | blob => trivial

theorem subset_addTags (loc : Odb) (refs set : List Oid) : set ⊆ addTags loc refs set := by
  induction refs generalizing set with
  | nil => exact List.Subset.refl set
  | cons id refs ih =>
    rw [addTags, List.foldl_cons]
    refine List.Subset.trans ?_ (ih _)
    split_ifs with hmem
    · exact List.Subset.refl set
    · split
      · split_ifs
        · exact List.subset_cons_self id set
        · exact List.Subset.refl set
      · exact List.Subset.refl set

theorem subset_includeTags {db : Odb} (repo : Repo db) (loc : Odb) (includeTag : Bool)
    (set : List Oid) : set ⊆ includeTags repo loc includeTag set := by
  unfold includeTags
  split
  · exact subset_addTags loc _ set
  · exact List.Subset.refl set

theorem mem_walkCommits {db : Odb} {repo : Repo db} {tips hidden commits : List Oid}
    (h : walkCommits repo tips hidden = .ok commits) (c : Oid) : c ∈ commits ↔
      (∃ t ∈ tips, db.Ancestor t c) ∧ ∀ h ∈ hidden, ¬ db.Ancestor h c := by
  unfold walkCommits at h
  split_ifs at h with htips
  · cases h
    rw [List.isEmpty_iff] at htips
    simp [htips]
  · split at h
    · rename_i commits' hwalk
      cases h
      exact repo.walk.exact hwalk c
    · cases h

theorem takeCommits_spec {db loc : Odb} {wants haves : List Oid} {repo : Repo db}
    (hwithin : loc.Within db) (hclear : Clear db wants haves) {commits : List Oid}
    (hsent : ∀ c ∈ commits, Sent db wants haves c) {s s' : Found × ℕ}
    (h : commits.foldlM (takeCommit repo loc .none true haves) s = .ok s') :
    FoundAdvances db wants haves loc (Diffs db wants haves) s.1 s'.1 ∧
      ∀ c ∈ commits, s'.1.missing = [] → c ∈ haves ∨ c ∈ s'.1.set := by
  refine Checks.foldlM_each
    (R := fun s s' => FoundAdvances db wants haves loc (Diffs db wants haves) s.1 s'.1)
    (P := fun c s => s.1.missing = [] → c ∈ haves ∨ c ∈ s.1.set)
    (fun s => .refl s.1) (fun _ _ _ => FoundAdvances.trans) ?_ ?_ h
  · intro c s s' hs hadvances hquiet
    obtain ⟨hquiet', hsub, -⟩ := hadvances hquiet
    exact (hs hquiet').imp_right fun hmem => hsub hmem
  · exact fun c hc s s' hstep => takeCommit_spec hwithin hclear (hsent c hc) hstep

variable {db : Odb} {loc : Odb} {haves : List Oid} {req : UploadPackRequest} {repo : Repo db}

/-- An enumeration that needs nothing more left what `Enumeration` says. -/
theorem diffObjects_done {contains : Oid → Bool} {set : List Oid} {taken : ℕ} {diffed : Bool}
    (hwithin : loc.Within db) (hknown : ∀ x, db.has x → loc.has x ∨ contains x)
    (hplain : Plain req) (hdiff : haves ≠ []) (hclear : Clear db req.wants haves)
    (h : diffObjects repo loc req haves contains = .ok (.done set taken diffed)) :
    ∃ start set', Enumeration db req.wants haves loc start set' ∧ set' ⊆ set := by
  have hfilter : req.packFilter = .none := by simp [UploadPackRequest.packFilter, hplain.filter]
  have hhidden : hiddenTips loc req haves = .ok haves := by
    simp [hiddenTips, hplain.deepen, hplain.shallow]
  have hmode : (!haves.isEmpty) = true := by simpa using hdiff
  simp only [diffObjects, hfilter, hmode, hhidden, Checks.bind_eq_ok] at h
  obtain ⟨start, hstart, hidden, hh, commits, hcommits, ⟨found, n⟩, htaken, h⟩ := h
  cases hh
  split_ifs at h with hmissing
  · cases h
  · cases h
    have hquiet : found.missing = [] := not_not.mp hmissing
    obtain ⟨hadvances, hsorted⟩ := addWants_spec hwithin hclear hknown hstart
    have hled : ∀ t ∈ start.commits, LedTo db req.wants t := fun t ht =>
      (hadvances.led t ht).resolve_left (by simp)
    have hwalk := mem_walkCommits hcommits
    have hsent : ∀ c ∈ commits, Sent db req.wants haves c := by
      intro c hc
      obtain ⟨⟨t, ht, htc⟩, hhaves⟩ := (hwalk c).mp hc
      obtain ⟨w, hw, hwt⟩ := hled t ht
      exact ⟨⟨w, hw, t, hwt, htc⟩, hhaves⟩
    obtain ⟨hfound, hmem⟩ := takeCommits_spec hwithin hclear hsent htaken
    obtain ⟨hquiet', hsub, hnew⟩ := hfound hquiet
    have hstarted : ∀ y ∈ start.found.set,
        Settled db req.wants haves loc NoDiffs start.found.set y := fun y hy =>
      ((hadvances.found hquiet').2.2 y hy).resolve_left (by simp)
    refine ⟨start, found.set, ⟨hled, hsorted hquiet', hstarted, hsub, fun y hy => ?_,
      fun c hc hhaves => ?_⟩, subset_includeTags repo loc req.includeTag found.set⟩
    · rcases hnew y hy with hold | hsettled
      · exact ((hstarted y hold).mono hsub).mono_diffed fun _ _ hd => hd.elim
      · exact hsettled
    · refine (hmem c ((hwalk c).mpr ⟨hc, hhaves⟩) hquiet).resolve_left fun hhave => ?_
      exact hhaves c hhave .refl

/-- Everything local or in the remote part. -/
def Covers (db : Odb) (faulter : Option (Faulter db)) (loc : Odb) : Prop :=
  ∀ x, db.has x → loc.has x ∨ faulter.any fun f => f.contains x

theorem Covers.mono {faulter : Option (Faulter db)} {loc' : Odb} (h : Covers db faulter loc)
    (hsub : loc.Within loc') : Covers db faulter loc' := by
  refine fun x hx => (h x hx).imp_left fun hlocal => ?_
  obtain ⟨o, ho⟩ := Option.isSome_iff_exists.mp hlocal
  exact Option.isSome_iff_exists.mpr ⟨o, hsub x o ho⟩

theorem faultIn_spec {faulter : Option (Faulter db)} {loc loc' : Odb} {ids : List Oid} {n : ℕ}
    (hwithin : loc.Within db) (h : faultIn faulter loc ids = .ok (loc', n)) :
    loc'.Within db ∧ loc.Within loc' := by
  cases faulter with
  | none => cases h
  | some f => exact f.within hwithin h

theorem faultWants_spec {faulter : Option (Faulter db)} {loc loc' : Odb} {wants : List Oid}
    (hwithin : loc.Within db) (h : faultWants faulter loc wants = .ok loc') :
    loc'.Within db ∧ loc.Within loc' := by
  unfold faultWants at h
  split at h
  · cases h
    exact ⟨hwithin, fun _ _ ho => ho⟩
  · rw [Checks.bind_eq_ok] at h
    obtain ⟨⟨loc₁, found⟩, hfault, h⟩ := h
    rw [Checks.last_ok] at h
    obtain ⟨-, h⟩ := h
    cases h
    exact faultIn_spec hwithin hfault

theorem enumerate_done {db : ObjectGraph} {repo : Repo db.toOdb}
    {faulter : Option (Faulter db.toOdb)} {loc : Odb} {req : UploadPackRequest}
    {haves set : List Oid} {taken : ℕ} {diffed : Bool} (hwithin : loc.Within db.toOdb)
    (hcovers : Covers db.toOdb faulter loc) (hplain : Plain req) (hdiff : haves ≠ [])
    (hclear : Clear db.toOdb req.wants haves)
    (h : enumerate repo loc req haves faulter = .ok (.done set taken diffed)) :
    ∀ w ∈ req.wants, Complete db.toOdb haves set w := by
  have hmode : haves.isEmpty = false := by simpa using hdiff
  rw [enumerate, hmode, if_neg (by simp)] at h
  obtain ⟨start, set', henum, hsub⟩ := diffObjects_done hwithin hcovers hplain hdiff hclear h
  intro w hw y hreach hy
  exact (henum.complete db.acyclic hwithin hclear hw y hreach hy).imp_left fun hmem => hsub hmem

/-- The enumeration that ends the rounds is complete, whatever the rounds before it copied. -/
theorem enumerateRounds_complete {db : ObjectGraph} {repo : Repo db.toOdb}
    {faulter : Option (Faulter db.toOdb)} {loc loc' : Odb} {req : UploadPackRequest}
    {haves set : List Oid} {remaining : ℕ} (hwithin : loc.Within db.toOdb)
    (hcovers : Covers db.toOdb faulter loc) (hplain : Plain req) (hdiff : haves ≠ [])
    (hclear : Clear db.toOdb req.wants haves)
    (h : enumerateRounds repo req haves faulter remaining loc = .ok (set, loc')) :
    ∀ w ∈ req.wants, Complete db.toOdb haves set w := by
  induction remaining generalizing loc with
  | zero =>
    rw [enumerateRounds, Checks.bind_eq_ok] at h
    obtain ⟨r, hr, h⟩ := h
    cases r with
    | done set₁ taken diffed =>
      cases h
      exact enumerate_done hwithin hcovers hplain hdiff hclear hr
    | need missing =>
      dsimp only at h
      split_ifs at h
  | succ remaining ih =>
    rw [enumerateRounds, Checks.bind_eq_ok] at h
    obtain ⟨r, hr, h⟩ := h
    cases r with
    | done set₁ taken diffed =>
      cases h
      exact enumerate_done hwithin hcovers hplain hdiff hclear hr
    | need missing =>
      dsimp only at h
      split_ifs at h
      rw [Checks.bind_eq_ok] at h
      obtain ⟨⟨loc₁, found⟩, hfault, h⟩ := h
      obtain ⟨hwithin₁, hsub⟩ := faultIn_spec hwithin hfault
      dsimp only at h
      split_ifs at h
      exact ih hwithin₁ (hcovers.mono hsub) h

end Rounds

section Stores

/-- A store whose objects can be numbered so that each names smaller ones. -/
theorem wellFounded_link {db : Odb} (rank : Oid → ℕ)
    (h : ∀ entry ∈ db.objects, ∀ y ∈ entry.2.links, rank y < rank entry.1) :
    WellFounded fun y x => db.Link x y := by
  refine Subrelation.wf (fun {y x} hlink => ?_) (measure rank).wf
  obtain ⟨o, ho, hy⟩ := hlink
  obtain ⟨before, after, heq, -⟩ := List.lookup_eq_some_iff.mp ho
  exact h (x, o) (by simp [heq]) y hy

/-- What is reachable from a closed list is in it. -/
theorem mem_of_reaches {db : Odb} {ids : List Oid}
    (hclosed : ∀ x ∈ ids, ∀ o ∈ db.find x, ∀ y ∈ o.links, y ∈ ids) {x y : Oid} (hx : x ∈ ids)
    (h : db.Reaches x y) : y ∈ ids := by
  induction h with
  | refl => exact hx
  | tail _ hlink ih =>
    obtain ⟨o, ho, hy⟩ := hlink
    exact hclosed _ ih o ho _ hy

/-- How far from the end of the list an object is. -/
def laterRank (objects : List (Oid × GitObject)) (x : Oid) : ℕ :=
  objects.length - (objects.map Prod.fst).idxOf x

/-- A store whose objects name later ones only. -/
def graphOf (objects : List (Oid × GitObject))
    (h : ∀ entry ∈ objects, ∀ y ∈ entry.2.links,
      laterRank objects y < laterRank objects entry.1) : ObjectGraph where
  objects := objects
  acyclic := wellFounded_link (laterRank objects) h

/-- A commit on top of another one, with a file that is new. -/
def added : ObjectGraph :=
  graphOf [("c1", .commit "t1" ["c0"]), ("t1", .tree [⟨.blob, "a", "a1"⟩]),
    ("c0", .commit "t0" []), ("t0", .tree []), ("a1", .blob)] (by decide)

/-- A commit that reverts its parent, which changed one of two files. -/
def reverted : ObjectGraph :=
  graphOf [("c3", .commit "t" ["c2"]), ("c2", .commit "u" ["c1"]), ("c1", .commit "t" ["c0"]),
    ("t", .tree [⟨.blob, "a", "a1"⟩, ⟨.blob, "b", "b1"⟩]),
    ("u", .tree [⟨.blob, "a", "a2"⟩, ⟨.blob, "b", "b1"⟩]),
    ("c0", .commit "t0" []), ("t0", .tree []), ("a1", .blob), ("a2", .blob), ("b1", .blob)]
    (by decide)

def searching (db : ObjectGraph) : Repo db.toOdb := ⟨.search db.toOdb, fun _ => 0, none⟩

theorem added_not_tag (x y : Oid) : ¬ TagOf added.toOdb x y := by
  intro h
  obtain ⟨before, after, heq, -⟩ := List.lookup_eq_some_iff.mp h
  have hmem : (x, GitObject.tag y) ∈ added.objects := by simp [heq]
  simp [added, graphOf] at hmem

theorem added_sent {c : Oid} (h : Sent added.toOdb ["c1"] ["c0"] c) : c = "c1" := by
  obtain ⟨⟨w, hw, t, hwt, htc⟩, hhaves⟩ := h
  obtain rfl := List.mem_singleton.mp hw
  rcases Relation.ReflTransGen.cases_head hwt with rfl | ⟨z, hz, -⟩
  · have hmem : c ∈ added.ancestors ["c1"] :=
      Odb.mem_ancestors.mpr ⟨"c1", List.mem_singleton.mpr rfl, htc⟩
    have hall : ∀ c ∈ added.ancestors ["c1"], c = "c1" ∨ c = "c0" := by decide
    refine (hall c hmem).resolve_right fun hc => ?_
    exact hhaves "c0" (List.mem_singleton.mpr rfl) (hc ▸ .refl)
  · exact absurd hz (added_not_tag _ _)

theorem added_diffed {t : Oid} {olds : List Old} (h : DiffedAt added.toOdb "c1" t olds) :
    t = "t1" ∧ olds = [.tree "t0"] := by
  induction h with
  | root hfind =>
    have hcommit : added.find "c1" = some (.commit "t1" ["c0"]) := by decide
    rw [hcommit] at hfind
    cases hfind
    exact ⟨rfl, by decide⟩
  | sub ht hfind he hmode hchanged ih =>
    have htree : added.find "t1" = some (.tree [⟨.blob, "a", "a1"⟩]) := by decide
    rw [ih.1, htree] at hfind
    cases hfind
    obtain rfl := List.mem_singleton.mp he
    cases hmode

theorem added_clear : Clear added.toOdb ["c1"] ["c0"] where
  kinds := by
    intro x o y k o' _ hx hy ho' _
    have hkinds : ∀ entry ∈ added.objects, ∀ name ∈ entry.2.names,
        ∀ o' ∈ added.find name.1, o'.kind = name.2 := by decide
    obtain ⟨before, after, heq, -⟩ := List.lookup_eq_some_iff.mp hx
    exact hkinds (x, o) (by simp [heq]) (y, k) hy o' ho'
  tags := by
    rintro c root parents x ⟨w, hw, htag⟩
    obtain ⟨z, hz, -⟩ := Relation.TransGen.head'_iff.mp htag
    exact absurd hz (added_not_tag _ _)
  trees := by
    intro c c' t olds olds' entries e x hsent hsent' h h' _ _ _ hchanged hsame
    obtain rfl := added_sent hsent
    obtain rfl := added_sent hsent'
    rw [(added_diffed h).2] at hchanged
    rw [(added_diffed h').2] at hsame
    exact absurd hsame hchanged

end Stores

end Walgit.UploadPack
