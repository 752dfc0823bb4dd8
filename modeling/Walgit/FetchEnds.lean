import Walgit.Fetch

/-!
# A fetch ends

The walks of the enumeration enter a tree once, and tags do not lead back to themselves, so the
number of objects bounds how deep they go.
-/
namespace Walgit.UploadPack

section Trees

variable {loc : Odb} {sizes : Oid → ℕ} {filter : PackFilter}

/-- The stored objects that were not taken. -/
def left (loc : Odb) (set : List Oid) : ℕ := Worklist.fresh Prod.fst loc.objects set

theorem left_le (set : List Oid) : left loc set ≤ loc.objects.length := List.length_filter_le _ _

theorem left_anti {set set' : List Oid} (h : set ⊆ set') : left loc set' ≤ left loc set := by
  refine List.Sublist.length_le (List.monotone_filter_right _ fun entry hnew => ?_)
  simp only [decide_eq_true_eq] at hnew ⊢
  exact fun hmem => hnew (h hmem)

theorem left_insert_lt {set : List Oid} {id : Oid} (hid : loc.has id) (hnew : id ∉ set) :
    left loc (set.insert id) < left loc set := by
  obtain ⟨o, ho⟩ := Option.isSome_iff_exists.mp hid
  obtain ⟨before, after, heq, -⟩ := List.lookup_eq_some_iff.mp ho
  have hmem : (id, o) ∈ loc.objects := by simp [heq]
  rw [List.insert_of_not_mem hnew]
  exact Worklist.fresh_cons_lt hmem hnew

/-- The fuel is enough for a walk from a tree that was taken. -/
def Enough (loc : Odb) (fuel : ℕ) (id : Oid) (set : List Oid) : Prop :=
  0 < fuel ∧ (loc.has id → left loc set + 2 ≤ fuel)

theorem enough_root {id : Oid} {set : List Oid} (hid : id ∈ set) :
    Enough loc (treeFuel loc) id set := by
  refine ⟨Nat.succ_pos _, fun hhas => ?_⟩
  obtain ⟨o, ho⟩ := Option.isSome_iff_exists.mp hhas
  obtain ⟨before, after, heq, -⟩ := List.lookup_eq_some_iff.mp ho
  have hlt : left loc set < loc.objects.length :=
    List.length_filter_lt_length_iff_exists.mpr ⟨(id, o), by simp [heq], by simpa using hid⟩
  rw [treeFuel]
  omega

theorem Enough.sub {fuel : ℕ} {t id : Oid} {set set' : List Oid} (ht : loc.has t)
    (h : Enough loc (fuel + 1) t set) (hsub : set ⊆ set') (hnew : id ∉ set') :
    Enough loc fuel id (set'.insert id) := by
  have hfuel := h.2 ht
  have hleft : left loc set' ≤ left loc set := left_anti hsub
  refine ⟨by omega, fun hid => ?_⟩
  have := left_insert_lt hid hnew
  omega

theorem has_of_treeEntries {t : Oid} {entries : List TreeEntry} {e : TreeEntry}
    (h : treeEntries loc t = some entries) (he : e ∈ entries) : loc.has t := by
  rw [Odb.has, find_of_mem_treeEntries h he]
  rfl

/-- A diff may defer its own tree; everything else that was taken stays. -/
def Keeps (id : Oid) (s s' : Found) : Prop := ∀ x ∈ s.set, x ≠ id → x ∈ s'.set

theorem diffEntry_keeps {diff : Oid → List Old → Found → Except UploadError Found}
    (hdiff : ∀ {id olds s s'}, diff id olds s = .ok s' → Keeps id s s') {olds : List Old}
    {depth : ℕ} {e : TreeEntry} {s s' : Found}
    (h : diffEntry loc sizes filter diff olds depth s e = .ok s') : s.set ⊆ s'.set := by
  have hinsert : s.set ⊆ (s.insert e.oid).set := fun x hx => List.mem_insert_of_mem hx
  rw [diffEntry] at h
  split_ifs at h with hgitlink hsame htree hskip hmem hskip
  · cases h
    exact List.Subset.refl _
  · cases h
    exact List.Subset.refl _
  · cases h
    exact hinsert
  · cases h
    exact List.Subset.refl _
  · exact fun x hx => hdiff h x (hinsert hx) fun hxe => hmem (hxe ▸ hx)
  · cases h
    exact List.Subset.refl _
  · cases h
    exact hinsert

theorem diffTree_keeps {fuel : ℕ} {id : Oid} {olds : List Old} {depth : ℕ} {s s' : Found}
    (h : diffTree loc sizes filter fuel id olds depth s = .ok s') : Keeps id s s' := by
  induction fuel generalizing id olds depth s s' with
  | zero => cases h
  | succ fuel ih =>
    rw [diffTree] at h
    split at h
    · cases h
      exact fun x hx _ => hx
    · split at h
      · obtain ⟨hsub, -⟩ := Checks.foldlM_each (R := fun s s' : Found => s.set ⊆ s'.set)
          (P := fun _ _ => True) (fun s => List.Subset.refl s.set)
          (fun _ _ _ => List.Subset.trans) (fun _ _ _ _ _ => trivial)
          (fun e _ s s' hstep => ⟨diffEntry_keeps (fun hd => ih hd) hstep, trivial⟩) h
        exact fun x hx _ => hsub hx
      · cases h
        exact fun x hx hne => List.mem_filter.mpr ⟨hx, by simpa using hne⟩

theorem diffTree_ends {fuel : ℕ} {id : Oid} {olds : List Old} {depth : ℕ} {s : Found}
    (h : Enough loc fuel id s.set) :
    diffTree loc sizes filter fuel id olds depth s ≠ .error .exhausted := by
  induction fuel generalizing id olds depth s with
  | zero => exact absurd h.1 (Nat.lt_irrefl 0)
  | succ fuel ih =>
    rw [diffTree]
    split
    · exact fun heq => by cases heq
    · rename_i entries hentries
      split
      · refine Checks.foldlM_error_of (I := fun s' => s.set ⊆ s'.set) (fun e he s' hsub => ?_)
          (List.Subset.refl _)
        refine ⟨?_, fun s'' hstep => List.Subset.trans hsub
          (diffEntry_keeps (fun hd => diffTree_keeps hd) hstep)⟩
        rw [diffEntry]
        split_ifs with hgitlink hsame htree hskip hmem hskip
        · exact fun heq => by cases heq
        · exact fun heq => by cases heq
        · exact fun heq => by cases heq
        · exact fun heq => by cases heq
        · exact ih (h.sub (has_of_treeEntries hentries he) hsub hmem)
        · exact fun heq => by cases heq
        · exact fun heq => by cases heq
      · exact fun heq => by cases heq

theorem walkEntry_keeps {walk : Oid → List Oid → Except UploadError (List Oid)}
    (hwalk : ∀ {id set set'}, walk id set = .ok set' → set ⊆ set') {depth : ℕ} {e : TreeEntry}
    {set set' : List Oid} (h : walkEntry loc sizes filter walk depth set e = .ok set') :
    set ⊆ set' := by
  have hinsert : set ⊆ set.insert e.oid := fun x hx => List.mem_insert_of_mem hx
  rw [walkEntry] at h
  split_ifs at h with htree hskip hmem hgitlink hskip
  · cases h
    exact hinsert
  · cases h
    exact List.Subset.refl _
  · exact List.Subset.trans hinsert (hwalk h)
  · cases h
    exact List.Subset.refl _
  · cases h
    exact List.Subset.refl _
  · cases h
    exact hinsert

theorem walkTree_keeps {fuel : ℕ} {id : Oid} {depth : ℕ} {set set' : List Oid}
    (h : walkTree loc sizes filter fuel id depth set = .ok set') : set ⊆ set' := by
  induction fuel generalizing id depth set set' with
  | zero => cases h
  | succ fuel ih =>
    rw [walkTree] at h
    split at h
    · obtain ⟨hsub, -⟩ := Checks.foldlM_each (R := fun set set' : List Oid => set ⊆ set')
        (P := fun _ _ => True) List.Subset.refl (fun _ _ _ => List.Subset.trans)
        (fun _ _ _ _ _ => trivial)
        (fun e _ set set' hstep => ⟨walkEntry_keeps (fun hw => ih hw) hstep, trivial⟩) h
      exact hsub
    · cases h

theorem walkTree_ends {fuel : ℕ} {id : Oid} {depth : ℕ} {set : List Oid}
    (h : Enough loc fuel id set) :
    walkTree loc sizes filter fuel id depth set ≠ .error .exhausted := by
  induction fuel generalizing id depth set with
  | zero => exact absurd h.1 (Nat.lt_irrefl 0)
  | succ fuel ih =>
    rw [walkTree]
    split
    · rename_i entries hfind
      have hid : loc.has id := by
        rw [Odb.has, hfind]
        rfl
      refine Checks.foldlM_error_of (I := fun set' => set ⊆ set') (fun e he set' hsub => ?_)
        (List.Subset.refl _)
      refine ⟨?_, fun set'' hstep => List.Subset.trans hsub
        (walkEntry_keeps (fun hw => walkTree_keeps hw) hstep)⟩
      rw [walkEntry]
      split_ifs with htree hskip hmem hgitlink hskip
      · exact fun heq => by cases heq
      · exact fun heq => by cases heq
      · exact ih (h.sub hid hsub hmem)
      · exact fun heq => by cases heq
      · exact fun heq => by cases heq
      · exact fun heq => by cases heq
    · exact fun heq => by cases heq

end Trees

section Tags

variable {db : ObjectGraph} {repo : Repo db.toOdb} {loc : Odb} {filter : PackFilter}

theorem not_cycle (x : Oid) : ¬ Relation.TransGen db.Link x x := by
  intro h
  have hswap : Relation.TransGen (fun y x => db.Link x y) x x := Relation.transGen_swap.mpr h
  exact db.acyclic.transGen.asymmetric x x hswap hswap

/-- The tags on the way lead to the object, so it is a new one. -/
def Chased (db : ObjectGraph) (loc : Odb) (fuel : ℕ) (seen : List Oid) (cur : Oid) : Prop :=
  (∀ x ∈ seen, Relation.TransGen db.Link x cur) ∧ left loc seen < fuel

theorem Chased.next (hwithin : loc.Within db.toOdb) {fuel : ℕ} {seen : List Oid} {cur target : Oid}
    (h : Chased db loc (fuel + 1) seen cur) (hfind : loc.find cur = some (.tag target)) :
    Chased db loc fuel (cur :: seen) target := by
  have hlink : db.Link cur target := ⟨_, hwithin cur _ hfind, List.mem_singleton.mpr rfl⟩
  have hnew : cur ∉ seen := fun hmem => not_cycle cur (h.1 cur hmem)
  have hhas : loc.has cur := by
    rw [Odb.has, hfind]
    rfl
  have hlt := left_insert_lt hhas hnew
  rw [List.insert_of_not_mem hnew] at hlt
  refine ⟨fun x hx => ?_, by have := h.2; omega⟩
  rcases List.mem_cons.mp hx with rfl | hx
  · exact .single hlink
  · exact (h.1 x hx).tail hlink

theorem chased_start (cur : Oid) : Chased db loc (treeFuel loc) [] cur :=
  ⟨by simp, Nat.lt_succ_of_le (left_le [])⟩

theorem followTag_ends (hwithin : loc.Within db.toOdb) {fuel : ℕ} {seen : List Oid} {cur : Oid}
    {s : Wanted} (h : Chased db loc fuel seen cur) :
    followTag repo loc filter fuel cur s ≠ .error .exhausted := by
  induction fuel generalizing seen cur s with
  | zero => exact absurd h.2 (Nat.not_lt_zero _)
  | succ fuel ih =>
    rw [followTag]
    split
    · exact fun heq => by cases heq
    · rename_i target hfind
      exact ih (h.next hwithin hfind)
    · exact fun heq => by cases heq
    · refine Checks.bind_ne_error (walkTree_ends (enough_root List.mem_insert_self)) ?_
      exact fun _ _ heq => by cases heq
    · exact fun heq => by cases heq

theorem chaseTag_ends (hwithin : loc.Within db.toOdb) {fuel : ℕ} {seen : List Oid} {cur : Oid}
    {set : List Oid} (h : Chased db loc fuel seen cur) :
    chaseTag loc fuel cur set ≠ .error .exhausted := by
  induction fuel generalizing seen cur set with
  | zero => exact absurd h.2 (Nat.not_lt_zero _)
  | succ fuel ih =>
    rw [chaseTag]
    split
    · exact fun heq => by cases heq
    · rename_i target hfind
      exact ih (h.next hwithin hfind)
    · exact fun heq => by cases heq

end Tags

section Enumerate

variable {db : ObjectGraph} {repo : Repo db.toOdb} {loc : Odb} {filter : PackFilter}

theorem addWant_ends (hwithin : loc.Within db.toOdb) {contains : Oid → Bool} {s : Wanted}
    {want : Oid} : addWant repo loc filter contains s want ≠ .error .exhausted := by
  unfold addWant
  split
  · exact fun heq => by cases heq
  · exact followTag_ends hwithin (chased_start want)
  · dsimp only
    split_ifs
    · exact fun heq => by cases heq
    · refine Checks.bind_ne_error (walkTree_ends (enough_root List.mem_insert_self)) ?_
      exact fun _ _ heq => by cases heq
  · exact fun heq => by cases heq
  · split_ifs
    · exact fun heq => by cases heq
    · exact fun heq => by cases heq

theorem addLocalWant_ends (hwithin : loc.Within db.toOdb) {s : List Oid × List Oid} {want : Oid} :
    addLocalWant repo loc filter s want ≠ .error .exhausted := by
  unfold addLocalWant
  dsimp only
  split
  · exact fun heq => by cases heq
  · refine Checks.bind_ne_error (chaseTag_ends hwithin (chased_start want)) fun r _ => ?_
    split
    · exact fun heq => by cases heq
    · exact fun heq => by cases heq
  · split_ifs
    · exact fun heq => by cases heq
    · refine Checks.bind_ne_error (walkTree_ends (enough_root List.mem_insert_self)) ?_
      exact fun _ _ heq => by cases heq
  · exact fun heq => by cases heq
  · exact fun heq => by cases heq

theorem diffRoot_ends {root : Oid} {olds : List Old} {s : Found} :
    diffRoot repo loc filter root olds s ≠ .error .exhausted := by
  rw [diffRoot]
  split_ifs
  · exact fun heq => by cases heq
  · exact diffTree_ends (enough_root List.mem_insert_self)

theorem parentTree_ends {s : List Old × List Oid} {p : Oid} :
    parentTree loc s p ≠ .error .exhausted := by
  unfold parentTree
  split <;> exact fun heq => by cases heq

theorem takeCommit_ends {diffMode : Bool} {hidden : List Oid} {s : Found × ℕ} {cid : Oid} :
    takeCommit repo loc filter diffMode hidden s cid ≠ .error .exhausted := by
  unfold takeCommit
  by_cases hskip : cid ∈ hidden ∨ cid ∈ s.1.set
  · rw [if_pos hskip]
    exact fun heq => by cases heq
  · rw [if_neg hskip]
    dsimp only
    split
    · exact fun heq => by cases heq
    · split_ifs
      · exact fun heq => by cases heq
      · exact Checks.bind_ne_error diffRoot_ends fun _ _ heq => by cases heq
      · refine Checks.bind_ne_error (Checks.foldlM_error fun _ _ => parentTree_ends) fun r _ => ?_
        split_ifs
        · exact fun heq => by cases heq
        · exact Checks.bind_ne_error diffRoot_ends fun _ _ heq => by cases heq
    · exact fun heq => by cases heq

theorem takeLocalCommit_ends {whole : Bool} {set : List Oid} {cid : Oid} :
    takeLocalCommit repo loc filter whole set cid ≠ .error .exhausted := by
  unfold takeLocalCommit
  split_ifs
  · exact fun heq => by cases heq
  · exact fun heq => by cases heq
  · split
    · split_ifs
      · exact fun heq => by cases heq
      · exact walkTree_ends (enough_root List.mem_cons_self)
    · exact fun heq => by cases heq

theorem levelCommit_ends {last : Bool} {s : Levels} {cid : Oid} :
    levelCommit loc last s cid ≠ .error .exhausted := by
  unfold levelCommit
  by_cases hseen : cid ∈ s.seen
  · rw [if_pos hseen]
    exact fun heq => by cases heq
  · rw [if_neg hseen]
    split
    · cases last <;> exact fun heq => by cases heq
    · exact fun heq => by cases heq

theorem levels_ends {remaining : ℕ} {level : List Oid} {s : Levels} :
    levels loc remaining level s ≠ .error .exhausted := by
  induction remaining generalizing level s with
  | zero => exact fun heq => by cases heq
  | succ remaining ih =>
    rw [levels]
    split_ifs
    · exact fun heq => by cases heq
    · exact Checks.bind_ne_error (Checks.foldlM_error fun _ _ => levelCommit_ends) fun _ _ => ih

theorem computeShallow_ends {wants : List Oid} {depth : ℕ} :
    computeShallow loc wants depth ≠ .error .exhausted :=
  Checks.bind_ne_error levels_ends fun _ _ heq => by cases heq

theorem walkCommits_ends {tips hidden : List Oid} :
    walkCommits repo tips hidden ≠ .error .exhausted := by
  unfold walkCommits
  split_ifs
  · exact fun heq => by cases heq
  · split <;> exact fun heq => by cases heq

theorem hiddenTips_ends {req : UploadPackRequest} {haves : List Oid} :
    hiddenTips loc req haves ≠ .error .exhausted := by
  unfold hiddenTips
  dsimp only
  split
  · exact fun heq => by cases heq
  · exact Checks.bind_ne_error computeShallow_ends fun _ _ heq => by cases heq

/-- The fuel of the walks suffices. -/
theorem enumerate_ends (hwithin : loc.Within db.toOdb) {req : UploadPackRequest}
    {haves : List Oid} {faulter : Option (Faulter db.toOdb)} :
    enumerate repo loc req haves faulter ≠ .error .exhausted := by
  rw [enumerate]
  split_ifs
  · refine Checks.bind_ne_error ?_ fun _ _ heq => by cases heq
    refine Checks.bind_ne_error (Checks.foldlM_error fun _ _ => addLocalWant_ends hwithin) ?_
    have hrest : ∀ (set tips exclude : List Oid) (whole : Bool),
        (walkCommits repo tips (haves ++ exclude) >>= fun commits =>
          commits.foldlM (takeLocalCommit repo loc req.packFilter whole) set >>= fun set =>
            pure (includeTags repo loc req.includeTag set)) ≠ .error UploadError.exhausted := by
      intro set tips exclude whole
      refine Checks.bind_ne_error walkCommits_ends fun _ _ => ?_
      refine Checks.bind_ne_error (Checks.foldlM_error fun _ _ => takeLocalCommit_ends) ?_
      exact fun _ _ heq => by cases heq
    intro r _
    dsimp only
    split
    · exact hrest _ _ [] _
    · exact Checks.bind_ne_error computeShallow_ends fun plan _ => hrest _ _ plan.exclude _
  · refine Checks.bind_ne_error (Checks.foldlM_error fun _ _ => addWant_ends hwithin) fun _ _ => ?_
    refine Checks.bind_ne_error hiddenTips_ends fun _ _ => ?_
    refine Checks.bind_ne_error walkCommits_ends fun _ _ => ?_
    refine Checks.bind_ne_error (Checks.foldlM_error fun _ _ => takeCommit_ends) fun _ _ => ?_
    dsimp only
    split_ifs <;> exact fun heq => by cases heq

end Enumerate

end Walgit.UploadPack
