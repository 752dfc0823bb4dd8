import Walgit.DepthFilters

/-!
# Completeness under a filter

A tree that is met again at a smaller depth than before is not entered again, and what the filter
admits below it is missed. So is the tree of a commit that a wanted tag leads to: the commit is
taken with the tag, and the walk passes over it.
-/
namespace Walgit.UploadPack

section Wants

variable {db : ObjectGraph} (repo : Repo db.toOdb) (loc : Odb) (filter : PackFilter)

/-- What tags lead to. -/
def peel : ℕ → Oid → Oid
  | 0, cur => cur
  | fuel + 1, cur =>
    match loc.find cur with
    | some (.tag target) => peel fuel target
    | _ => cur

def rootMeetings (wanted : Bool) (root : Oid) : List Meeting :=
  ⟨root, 0, wanted⟩ :: meetings loc filter (treeFuel loc) root 0

/-- A wanted tree is walked. With a remote part, so is a tree that a wanted tag leads to. -/
def wantMeetings (remote : Bool) (want : Oid) : List Meeting :=
  let t := if remote then peel loc (treeFuel loc) want else want
  match loc.find t with
  | some (.tree _) => rootMeetings loc filter true t
  | _ => []

def commitMeetings (c : Oid) : List Meeting :=
  match loc.find c with
  | some (.commit root _) => rootMeetings loc filter false root
  | _ => []

def isCommit (id : Oid) : Bool := (loc.find id).any fun o => o.kind = .commit

/-- What both enumerations do with a want, in terms of what is taken and the commits. -/
def takeWant (remote : Bool) (s : List Oid × List Oid) (want : Oid) :
    Except UploadError (List Oid × List Oid) :=
  let set := s.1.insert want
  match loc.find want with
  | some (.commit _ _) => .ok (s.1, s.2 ++ [want])
  | some (.tag _) => do
    let (last, set) ← chaseTag loc (treeFuel loc) want set
    match loc.find last with
    | some (.commit _ _) => pure (set, s.2 ++ [last])
    | some (.tree _) =>
      if remote then do
        let set ← walkTree loc repo.sizes filter (treeFuel loc) last 0 set
        pure (set, s.2)
      else pure (set, s.2)
    | _ => pure (set, s.2)
  | some (.tree _) =>
    if filter = .tree 0 then .ok (set, s.2)
    else do
      let set ← walkTree loc repo.sizes filter (treeFuel loc) want 0 set
      pure (set, s.2)
  | some .blob | none => .ok (set, s.2)

variable {repo loc filter}

theorem addLocalWant_eq (s : List Oid × List Oid) (want : Oid) :
    addLocalWant repo loc filter s want = takeWant repo loc filter false s want := by
  unfold addLocalWant takeWant
  cases loc.find want with
  | none => rfl
  | some o =>
    cases o with
    | commit | tree | blob => rfl
    | tag target =>
      refine congrArg _ (funext fun r => ?_)
      dsimp only
      cases loc.find r.1 with
      | none => rfl
      | some o => cases o <;> rfl

/-- What chasing a tag leaves. -/
structure ChaseSpec (db : Odb) (loc : Odb) (fuel : ℕ) (cur : Oid) (set : List Oid) (last : Oid)
    (set' : List Oid) : Prop where
  subset : set ⊆ set'
  last_eq : last = peel loc fuel cur
  reached : Relation.ReflTransGen (TagOf loc) cur last
  found : ∃ o, loc.find last = some o ∧ o.kind ≠ .tag
  new : ∀ x ∈ set', x ∈ set ∨ x = last ∨ ∃ target, loc.find x = some (.tag target)
  chain : ∀ t, Relation.ReflTransGen (TagOf db) cur t →
    t ∈ set' ∧ (t = last ∨ ∃ target, loc.find t = some (.tag target))

theorem chaseTag_spec (hwithin : loc.Within db.toOdb) {fuel : ℕ} {cur last : Oid}
    {set set' : List Oid} (hmem : cur ∈ set)
    (h : chaseTag loc fuel cur set = .ok (last, set')) :
    ChaseSpec db.toOdb loc fuel cur set last set' := by
  induction fuel generalizing cur set with
  | zero => cases h
  | succ fuel ih =>
    rw [chaseTag] at h
    split at h
    · cases h
    · rename_i target hfind
      have hspec := ih List.mem_insert_self h
      refine ⟨fun x hx => hspec.subset (List.mem_insert_of_mem hx), ?_,
        .head hfind hspec.reached, hspec.found, fun x hx => ?_, fun t ht => ?_⟩
      · rw [peel, hfind]
        exact hspec.last_eq
      · rcases hspec.new x hx with hold | hnew
        · rcases List.mem_insert_iff.mp hold with rfl | hold
          · exact Or.inr (hspec.chain x .refl).2
          · exact Or.inl hold
        · exact Or.inr hnew
      · rcases Relation.ReflTransGen.cases_head ht with rfl | ⟨y, hy, hyt⟩
        · exact ⟨hspec.subset (List.mem_insert_of_mem hmem), Or.inr ⟨target, hfind⟩⟩
        · rw [TagOf, hwithin cur _ hfind, Option.some.injEq, GitObject.tag.injEq] at hy
          subst hy
          exact hspec.chain t hyt
    · rename_i o htag hfind
      cases h
      refine ⟨List.Subset.refl _, ?_, .refl, ⟨o, hfind, ?_⟩, fun x hx => Or.inl hx,
        fun t ht => ?_⟩
      · rw [peel, hfind]
        cases o with
        | tag target => exact absurd rfl (htag target)
        | commit | tree | blob => rfl
      · cases o with
        | tag target => exact absurd rfl (htag target)
        | commit | tree | blob => simp [GitObject.kind]
      · rcases Relation.ReflTransGen.cases_head ht with rfl | ⟨y, hy, -⟩
        · exact ⟨hmem, Or.inl rfl⟩
        · rw [TagOf, hwithin last _ hfind, Option.some.injEq] at hy
          exact absurd hy (htag y)

theorem kind_of_find (hwithin : loc.Within db.toOdb) {id : Oid} {o o' : GitObject}
    (hfind : loc.find id = some o) (ho' : db.find id = some o') : o'.kind = o.kind := by
  rw [hwithin id o hfind, Option.some.injEq] at ho'
  rw [ho']

section Chased

variable {fuel : ℕ} {want target last : Oid} {wants set set' : List Oid}
variable (hspec : ChaseSpec db.toOdb loc fuel want (set.insert want) last set')

include hspec in
theorem ChaseSpec.tagged (hwant : want ∈ wants) (hfind : loc.find want = some (.tag target)) :
    Tagged loc wants last := by
  obtain ⟨o, ho, hnot⟩ := hspec.found
  refine ⟨want, hwant, ?_⟩
  rcases Relation.reflTransGen_iff_eq_or_transGen.mp hspec.reached with rfl | htrans
  · rw [hfind, Option.some.injEq] at ho
    subst ho
    exact absurd rfl hnot
  · exact htrans

include hspec in
theorem ChaseSpec.takes (hwithin : loc.Within db.toOdb)
    (hfind : loc.find want = some (.tag target)) : Takes db.toOdb last set set' := by
  have htag : ∀ {x target}, loc.find x = some (.tag target) →
      ∀ o, db.find x = some o → o.kind = .tag ∨ o.kind = .blob :=
    fun hx _ ho => Or.inl (kind_of_find hwithin hx ho)
  refine ⟨fun x hx => hspec.subset (List.mem_insert_of_mem hx), fun x hx => ?_⟩
  rcases hspec.new x hx with hold | rfl | ⟨target, htarget⟩
  · rcases List.mem_insert_iff.mp hold with rfl | hold
    · exact Or.inr (Or.inr (htag hfind))
    · exact Or.inl hold
  · exact Or.inr (Or.inl rfl)
  · exact Or.inr (Or.inr (htag htarget))

end Chased

/-- Following a tag to an object that is there is chasing it. -/
theorem followTag_quiet {fuel : ℕ} {cur : Oid} {s s' : Wanted} (hmem : cur ∈ s.found.set)
    (h : followTag repo loc filter fuel cur s = .ok s') (hquiet : s'.found.missing = []) :
    s.found.missing = [] ∧ ∃ last set, chaseTag loc fuel cur s.found.set = .ok (last, set) ∧
      ((∃ root parents, loc.find last = some (.commit root parents) ∧
          s'.found.set = set ∧ s'.commits = s.commits ++ [last]) ∨
        (∃ entries, loc.find last = some (.tree entries) ∧
          walkTree loc repo.sizes filter (treeFuel loc) last 0 set = .ok s'.found.set ∧
          s'.commits = s.commits) ∨
        loc.find last = some .blob ∧ s'.found.set = set ∧ s'.commits = s.commits) := by
  induction fuel generalizing cur s with
  | zero => cases h
  | succ fuel ih =>
    rw [followTag] at h
    split at h
    · cases h
      simp [Found.miss] at hquiet
    · rename_i target hfind
      obtain ⟨hquiet, last, set, hchase, hlast⟩ := ih List.mem_insert_self h
      refine ⟨hquiet, last, set, ?_, hlast⟩
      rw [chaseTag, hfind]
      exact hchase
    · rename_i root parents hfind
      cases h
      refine ⟨hquiet, cur, s.found.set, ?_, Or.inl ⟨root, parents, hfind, rfl, rfl⟩⟩
      rw [chaseTag, hfind]
    · rename_i entries hfind
      rw [Checks.bind_eq_ok] at h
      obtain ⟨set, hset, h⟩ := h
      cases h
      rw [Found.insert, List.insert_of_mem hmem] at hset
      refine ⟨hquiet, cur, s.found.set, ?_, Or.inr (Or.inl ⟨entries, hfind, hset, rfl⟩)⟩
      rw [chaseTag, hfind]
    · rename_i hfind
      cases h
      refine ⟨hquiet, cur, s.found.set, ?_, Or.inr (Or.inr ⟨hfind, ?_, rfl⟩)⟩
      · rw [chaseTag, hfind]
      · exact List.insert_of_mem hmem

/-- The enumeration by diffs treats a want that is local if it exists in the same way. -/
theorem addWant_quiet {contains : Oid → Bool} {want : Oid} {s s' : Wanted}
    (hlocal : contains want = true → loc.has want = true)
    (h : addWant repo loc filter contains s want = .ok s') (hquiet : s'.found.missing = []) :
    s.found.missing = [] ∧
      takeWant repo loc filter true (s.found.set, s.commits) want =
        .ok (s'.found.set, s'.commits) := by
  unfold addWant at h
  unfold takeWant
  cases hfind : loc.find want with
  | none =>
    have hcontains : ¬ contains want = true := by
      intro hcontains
      have hhas := hlocal hcontains
      simp [Odb.has, hfind] at hhas
    rw [hfind] at h
    dsimp only at h
    rw [if_neg hcontains] at h
    cases h
    exact ⟨hquiet, rfl⟩
  | some o =>
    rw [hfind] at h
    cases o with
    | commit root parents =>
      cases h
      exact ⟨hquiet, rfl⟩
    | blob =>
      cases h
      exact ⟨hquiet, rfl⟩
    | tree entries =>
      dsimp only at h ⊢
      split_ifs at h ⊢ with hzero
      · cases h
        exact ⟨hquiet, rfl⟩
      · rw [Checks.bind_eq_ok] at h
        obtain ⟨set, hset, h⟩ := h
        cases h
        refine ⟨hquiet, Checks.bind_eq_ok.mpr ⟨set, hset, rfl⟩⟩
    | tag target =>
      obtain ⟨hquiet, last, set, hchase, hlast⟩ := followTag_quiet List.mem_insert_self h hquiet
      refine ⟨hquiet, Checks.bind_eq_ok.mpr ⟨(last, set), hchase, ?_⟩⟩
      dsimp only
      rcases hlast with ⟨root, parents, hl, hset, hcommits⟩ | ⟨entries, hl, hset, hcommits⟩ |
        ⟨hl, hset, hcommits⟩
      · rw [hl, ← hset, hcommits]
        rfl
      · rw [hl, hcommits]
        exact Checks.bind_eq_ok.mpr ⟨_, hset, rfl⟩
      · rw [hl, ← hset, hcommits]
        rfl

theorem followTag_commits {fuel : ℕ} {cur : Oid} {s s' : Wanted}
    (h : followTag repo loc filter fuel cur s = .ok s') {t : Oid} (ht : t ∈ s'.commits) :
    t ∈ s.commits ∨ Relation.ReflTransGen (TagOf loc) cur t := by
  induction fuel generalizing cur s with
  | zero => cases h
  | succ fuel ih =>
    rw [followTag] at h
    split at h
    · cases h
      exact Or.inl ht
    · rename_i target hfind
      exact (ih h).imp_right fun hreach => .head hfind hreach
    · cases h
      rcases List.mem_append.mp ht with hold | hnew
      · exact Or.inl hold
      · exact Or.inr (List.mem_singleton.mp hnew ▸ .refl)
    · obtain ⟨set, -, h⟩ := Checks.bind_eq_ok.mp h
      cases h
      exact Or.inl ht
    · cases h
      exact Or.inl ht

/-- Commits are walked from because a want leads to them. -/
theorem addWant_commits {contains : Oid → Bool} {want : Oid} {s s' : Wanted}
    (h : addWant repo loc filter contains s want = .ok s') {t : Oid} (ht : t ∈ s'.commits) :
    t ∈ s.commits ∨ Relation.ReflTransGen (TagOf loc) want t := by
  have hadd : t ∈ s.commits ++ [want] →
      t ∈ s.commits ∨ Relation.ReflTransGen (TagOf loc) want t := by
    intro ht
    rcases List.mem_append.mp ht with hold | hnew
    · exact Or.inl hold
    · exact Or.inr (List.mem_singleton.mp hnew ▸ .refl)
  unfold addWant at h
  split at h
  · cases h
    exact hadd ht
  · exact followTag_commits h ht
  · dsimp only at h
    split_ifs at h
    · cases h
      exact Or.inl ht
    · obtain ⟨set, -, h⟩ := Checks.bind_eq_ok.mp h
      cases h
      exact Or.inl ht
  · cases h
    exact Or.inl ht
  · split_ifs at h
    · cases h
      exact hadd ht
    · cases h
      exact Or.inl ht

/-- What a want leads to through tags is in its place. -/
def Gathered (db : Odb) (want : Oid) (s : List Oid × List Oid) : Prop :=
  ∀ t o, Relation.ReflTransGen (TagOf db) want t → db.find t = some o →
    (o.kind = .commit → t ∈ s.2) ∧ (o.kind ≠ .commit → t ∈ s.1)

/-- A want was added. -/
structure WantAdded (db : Odb) (wants : List Oid) (loc : Odb) (s s' : List Oid × List Oid) :
    Prop where
  subset : s.1 ⊆ s'.1
  tips : s.2 ⊆ s'.2
  led : ∀ t ∈ s'.2, t ∈ s.2 ∨ LedTo db wants t ∧ isCommit loc t

variable {wants : List Oid} {want : Oid} {s s' : List Oid × List Oid} {remote : Bool}

theorem gathered_of_not_tag (htag : ∀ target, db.find want ≠ some (.tag target))
    (h : ∀ o, db.find want = some o →
      (o.kind = .commit → want ∈ s.2) ∧ (o.kind ≠ .commit → want ∈ s.1)) :
    Gathered db.toOdb want s := by
  intro t o ht ho
  rcases Relation.ReflTransGen.cases_head ht with rfl | ⟨y, hy, -⟩
  · exact h o ho
  · exact absurd hy (htag y)

theorem takeWant_added (hwithin : loc.Within db.toOdb) (hwant : want ∈ wants)
    (hlocal : db.has want → loc.has want)
    (h : takeWant repo loc filter remote s want = .ok s') :
    WantAdded db.toOdb wants loc s s' ∧ Gathered db.toOdb want s' := by
  have hinsert : s.1 ⊆ s.1.insert want := fun x hx => List.mem_insert_of_mem hx
  have hself : want ∈ s.1.insert want := List.mem_insert_self
  have hsame : ∀ {set}, s.1 ⊆ set → WantAdded db.toOdb wants loc s (set, s.2) := fun hsub =>
    ⟨hsub, List.Subset.refl _, fun _ ht => Or.inl ht⟩
  unfold takeWant at h
  cases hfind : loc.find want with
  | none =>
    rw [hfind] at h
    cases h
    have habsent : db.find want = none := by
      by_contra hsome
      have hhas := hlocal (Option.isSome_iff_ne_none.mpr hsome)
      simp [Odb.has, hfind] at hhas
    exact ⟨hsame hinsert, gathered_of_not_tag (by simp [habsent]) (by simp [habsent])⟩
  | some o =>
    have hdb := hwithin want o hfind
    rw [hfind] at h
    cases o with
    | commit root parents =>
      cases h
      refine ⟨⟨List.Subset.refl _, List.subset_append_left _ _, fun t ht => ?_⟩,
        gathered_of_not_tag (by simp [hdb]) fun o ho => ?_⟩
      · rcases List.mem_append.mp ht with hold | hnew
        · exact Or.inl hold
        · obtain rfl := List.mem_singleton.mp hnew
          exact Or.inr ⟨⟨t, hwant, .refl⟩, by simp [isCommit, hfind, GitObject.kind]⟩
      · rw [hdb, Option.some.injEq] at ho
        subst ho
        exact ⟨fun _ => List.mem_append_right _ (List.mem_singleton.mpr rfl),
          fun hk => absurd rfl hk⟩
    | blob =>
      cases h
      refine ⟨hsame hinsert, gathered_of_not_tag (by simp [hdb]) fun o ho => ?_⟩
      rw [hdb, Option.some.injEq] at ho
      subst ho
      exact ⟨(fun hk => by cases hk), fun _ => hself⟩
    | tree entries =>
      have htaken : ∀ {set}, want ∈ set → Gathered db.toOdb want (set, s.2) := by
        refine fun hmem => gathered_of_not_tag (by simp [hdb]) fun o ho => ?_
        rw [hdb, Option.some.injEq] at ho
        subst ho
        exact ⟨(fun hk => by cases hk), fun _ => hmem⟩
      dsimp only at h
      split_ifs at h
      · cases h
        exact ⟨hsame hinsert, htaken hself⟩
      · rw [Checks.bind_eq_ok] at h
        obtain ⟨set, hset, h⟩ := h
        cases h
        have hsub := walkTree_keeps hset
        exact ⟨hsame (List.Subset.trans hinsert hsub), htaken (hsub hself)⟩
    | tag target =>
      rw [Checks.bind_eq_ok] at h
      obtain ⟨⟨last, set⟩, hchase, h⟩ := h
      have hspec := chaseTag_spec hwithin hself hchase
      have hsub := List.Subset.trans hinsert hspec.subset
      have hgather : ∀ {set' tips}, set ⊆ set' →
          (∀ root parents, loc.find last = some (.commit root parents) → last ∈ tips) →
          Gathered db.toOdb want (set', tips) := by
        intro set' tips hset htips t o ht ho
        obtain ⟨hmem, hlast⟩ := hspec.chain t ht
        refine ⟨fun hk => ?_, fun _ => hset hmem⟩
        rcases hlast with rfl | ⟨target, htarget⟩
        · obtain ⟨o', ho', -⟩ := hspec.found
          rw [hwithin t o' ho', Option.some.injEq] at ho
          subst ho
          cases o' with
          | commit root parents => exact htips root parents ho'
          | tree | tag | blob => cases hk
        · rw [kind_of_find hwithin htarget ho] at hk
          cases hk
      dsimp only at h
      split at h
      · rename_i root parents hcommit
        cases h
        refine ⟨⟨hsub, List.subset_append_left _ _, fun t ht => ?_⟩, hgather (List.Subset.refl _)
          fun _ _ _ => List.mem_append_right _ (List.mem_singleton.mpr rfl)⟩
        rcases List.mem_append.mp ht with hold | hnew
        · exact Or.inl hold
        · obtain rfl := List.mem_singleton.mp hnew
          exact Or.inr ⟨⟨want, hwant, tagOf_within hwithin hspec.reached⟩,
            by simp [isCommit, hcommit, GitObject.kind]⟩
      · rename_i entries htree
        split_ifs at h
        · rw [Checks.bind_eq_ok] at h
          obtain ⟨set', hset', h⟩ := h
          cases h
          have hkeeps := walkTree_keeps hset'
          exact ⟨hsame (List.Subset.trans hsub hkeeps), hgather hkeeps (by simp [htree])⟩
        · cases h
          exact ⟨hsame hsub, hgather (List.Subset.refl _) (by simp [htree])⟩
      · rename_i hcommit htree
        cases h
        exact ⟨hsame hsub, hgather (List.Subset.refl _) fun root parents hl =>
          absurd hl (hcommit root parents)⟩

end Wants

section Conditions

variable {db : ObjectGraph} (repo : Repo db.toOdb) (loc : Odb) (req : UploadPackRequest)

/-- Nothing that the filter admits is passed over. -/
structure Exposed (remote : Bool) : Prop where
  /-- No wanted tag leads to a commit; without a remote part, none leads to a tree. -/
  tags : ∀ t o, Tagged loc req.wants t → loc.find t = some o →
    o.kind ≠ .commit ∧ (remote = false → o.kind ≠ .tree)
  /-- The walks of the wants and of the commits never come to a tree at a smaller depth than
  before. -/
  trees : ∀ max, req.packFilter = .tree max → ∀ commits,
    walkCommits repo (req.wants.filter (isCommit loc)) [] = .ok commits →
      Steady (req.wants.flatMap (wantMeetings loc req.packFilter remote) ++
        commits.flatMap (commitMeetings loc req.packFilter))

variable {repo loc} {filter : PackFilter} {wants : List Oid} {want : Oid} {remote : Bool}
variable {met whole : List Meeting} {set set' : List Oid} {s s' : List Oid × List Oid}

theorem peel_of_not_tag (h : ∀ target, loc.find want ≠ some (.tag target)) (fuel : ℕ) :
    peel loc fuel want = want := by
  cases fuel with
  | zero => rfl
  | succ fuel =>
    rw [peel]
    split
    · rename_i target hfind
      exact absurd hfind (h target)
    · rfl

theorem wantMeetings_of_not_tag (h : ∀ target, loc.find want ≠ some (.tag target)) :
    wantMeetings loc filter remote want = match loc.find want with
      | some (.tree _) => rootMeetings loc filter true want
      | _ => [] := by
  unfold wantMeetings
  rw [peel_of_not_tag h, ite_self]

variable (hwithin : loc.Within db.toOdb) (hkinds : Typed db.toOdb wants)
variable (hsteady : ∀ max, filter = .tree max → Steady whole)

include hwithin hkinds hsteady in
/-- The walk of a wanted tree, whether it was taken before or not. -/
theorem walked_root {t : Oid} {entries : List TreeEntry} (ht : db.Reached wants t)
    (hfind : loc.find t = some (.tree entries))
    (hunderway : Underway db.toOdb loc repo.sizes filter met [] set)
    (hwhole : met ++ rootMeetings loc filter true t <+: whole)
    {taken : List Oid} (htakes : Takes db.toOdb t set taken) (hmem : t ∈ taken)
    (h : walkTree loc repo.sizes filter (treeFuel loc) t 0 taken = .ok set') :
    Walked db.toOdb loc repo.sizes filter (rootMeetings loc filter true t) set set' :=
  walked_fresh (walkTree_walked hwithin hkinds hsteady ht) hunderway (by simp)
    (fun _ ho => kind_of_find hwithin hfind ho) hwhole htakes hmem h

include hwithin hkinds hsteady in
theorem takeWant_walked (hwant : want ∈ wants) (hlocal : db.has want → loc.has want)
    (hzero : filter ≠ .tree 0)
    (htags : ∀ t o, Tagged loc wants t → loc.find t = some o →
      o.kind ≠ .commit ∧ (remote = false → o.kind ≠ .tree))
    (h : takeWant repo loc filter remote s want = .ok s')
    (hunderway : Underway db.toOdb loc repo.sizes filter met [] s.1)
    (hwhole : met ++ wantMeetings loc filter remote want <+: whole) :
    Walked db.toOdb loc repo.sizes filter (wantMeetings loc filter remote want) s.1 s'.1 := by
  unfold takeWant at h
  cases hfind : loc.find want with
  | none =>
    have habsent : db.find want = none := by
      by_contra hsome
      have hhas := hlocal (Option.isSome_iff_ne_none.mpr hsome)
      simp [Odb.has, hfind] at hhas
    rw [hfind] at h
    cases h
    rw [wantMeetings_of_not_tag (by simp [hfind]), hfind]
    exact .of_takes (.insert _ _) (by simp [habsent])
  | some o =>
    have hdb := hwithin want o hfind
    rw [hfind] at h
    cases o with
    | commit root parents =>
      cases h
      rw [wantMeetings_of_not_tag (by simp [hfind]), hfind]
      exact .refl _
    | blob =>
      cases h
      rw [wantMeetings_of_not_tag (by simp [hfind]), hfind]
      exact .of_takes (.insert _ _) (by simp [hdb, GitObject.kind])
    | tree entries =>
      rw [wantMeetings_of_not_tag (by simp [hfind]), hfind] at hwhole ⊢
      dsimp only at h
      rw [if_neg hzero, Checks.bind_eq_ok] at h
      obtain ⟨set, hset, h⟩ := h
      cases h
      exact walked_root hwithin hkinds hsteady ⟨want, hwant, .refl⟩ hfind hunderway hwhole
        (.insert _ _) List.mem_insert_self hset
    | tag target =>
      rw [Checks.bind_eq_ok] at h
      obtain ⟨⟨last, taken⟩, hchase, h⟩ := h
      have hspec := chaseTag_spec hwithin List.mem_insert_self hchase
      have hreached := tagOf_within hwithin hspec.reached
      have hlast : last ∈ taken := (hspec.chain last hreached).1
      have htakes := hspec.takes hwithin hfind
      obtain ⟨o, ho, hnot⟩ := hspec.found
      obtain ⟨hcommit, htree⟩ := htags last o (hspec.tagged hwant hfind) ho
      have hmeet : wantMeetings loc filter remote want =
          if remote = true ∧ o.kind = .tree then rootMeetings loc filter true last else [] := by
        unfold wantMeetings
        cases remote with
        | false => simp [hfind]
        | true =>
          rw [if_pos rfl, ← hspec.last_eq]
          dsimp only
          rw [ho]
          cases o <;> rfl
      rw [hmeet] at hwhole ⊢
      dsimp only at h
      rw [ho] at h
      cases o with
      | commit | tag => first | exact absurd rfl hcommit | exact absurd rfl hnot
      | blob =>
        cases h
        rw [if_neg (by simp [GitObject.kind])]
        exact .of_takes htakes fun o' ho' => Or.inr (kind_of_find hwithin ho ho')
      | tree entries =>
        cases remote with
        | false => exact absurd rfl (htree rfl)
        | true =>
          obtain ⟨set, hset, h⟩ := Checks.bind_eq_ok.mp h
          cases h
          rw [if_pos ⟨rfl, rfl⟩] at hwhole ⊢
          exact walked_root hwithin hkinds hsteady
            (Odb.Reached.trans ⟨want, hwant, .refl⟩ (reaches_of_tags hreached)) ho hunderway hwhole
            htakes hlast hset

include hwithin in
/-- The commits to walk from are the wanted ones. -/
theorem takeWant_tips (hwant : want ∈ wants)
    (htags : ∀ t o, Tagged loc wants t → loc.find t = some o → o.kind ≠ .commit)
    (h : takeWant repo loc filter remote s want = .ok s') :
    s'.2 = s.2 ++ [want].filter (isCommit loc) := by
  unfold takeWant at h
  have hnone : isCommit loc want = false → s.2 = s.2 ++ [want].filter (isCommit loc) :=
    fun hnot => by simp [hnot]
  cases hfind : loc.find want with
  | none =>
    rw [hfind] at h
    cases h
    exact hnone (by simp [isCommit, hfind])
  | some o =>
    rw [hfind] at h
    cases o with
    | commit root parents =>
      cases h
      simp [isCommit, hfind, GitObject.kind]
    | blob =>
      cases h
      exact hnone (by simp [isCommit, hfind, GitObject.kind])
    | tree entries =>
      have hsame := hnone (by simp [isCommit, hfind, GitObject.kind])
      dsimp only at h
      split_ifs at h
      · cases h
        exact hsame
      · obtain ⟨set, -, h⟩ := Checks.bind_eq_ok.mp h
        cases h
        exact hsame
    | tag target =>
      have hsame := hnone (by simp [isCommit, hfind, GitObject.kind])
      obtain ⟨⟨last, taken⟩, hchase, h⟩ := Checks.bind_eq_ok.mp h
      have hspec := chaseTag_spec hwithin List.mem_insert_self hchase
      dsimp only at h
      split at h
      · rename_i root parents hcommit
        exact absurd rfl (htags last _ (hspec.tagged hwant hfind) hcommit)
      · split_ifs at h
        · obtain ⟨set, -, h⟩ := Checks.bind_eq_ok.mp h
          cases h
          exact hsame
        · cases h
          exact hsame
      · cases h
        exact hsame

end Conditions

section Commits

variable {db : ObjectGraph} {repo : Repo db.toOdb} {loc : Odb} {filter : PackFilter}
variable {wants : List Oid} {met whole : List Meeting} {set set' : List Oid} {c : Oid}

theorem takeLocalCommit_takes
    (h : takeLocalCommit repo loc filter false set c = .ok set') : set ⊆ set' ∧ c ∈ set' := by
  unfold takeLocalCommit at h
  have hsub : set ⊆ c :: set := List.subset_cons_self c set
  split_ifs at h with hmem hwhole
  · cases h
    exact ⟨List.Subset.refl _, hmem⟩
  · cases hwhole
  · split at h
    · rename_i root parents hfind
      split_ifs at h with hroot
      · cases h
        exact ⟨hsub, List.mem_cons_self⟩
      · have hkeeps := walkTree_keeps h
        exact ⟨fun x hx => hkeeps (List.mem_cons_of_mem root (hsub hx)),
          hkeeps (List.mem_cons_of_mem root List.mem_cons_self)⟩
    · cases h

variable (hwithin : loc.Within db.toOdb) (hkinds : Typed db.toOdb wants)
variable (hsteady : ∀ max, filter = .tree max → Steady whole)

include hwithin hkinds hsteady in
theorem takeLocalCommit_walked (hc : db.Reached wants c) (hzero : filter ≠ .tree 0)
    (hunderway : Underway db.toOdb loc repo.sizes filter met [] set)
    (hwhole : met ++ commitMeetings loc filter c <+: whole)
    (h : takeLocalCommit repo loc filter false set c = .ok set') :
    Walked db.toOdb loc repo.sizes filter (commitMeetings loc filter c) set set' := by
  unfold takeLocalCommit at h
  unfold commitMeetings at hwhole ⊢
  by_cases hmem : c ∈ set
  · rw [if_pos hmem] at h
    cases h
    split
    · rename_i root parents hfind
      have hopened : Opened db.toOdb loc repo.sizes filter set 0 root :=
        (hunderway.accounted c hmem).resolve_left (by simp) _ (hwithin c _ hfind)
      exact ⟨List.Subset.refl _, List.forall_mem_cons.mpr ⟨hopened, hopened.below hwithin⟩,
        fun _ hx => Or.inl hx⟩
    · exact .refl set
  · rw [if_neg hmem, if_neg (by simp)] at h
    cases hfind : loc.find c with
    | none => simp [hfind] at h
    | some o =>
      rw [hfind] at h hwhole
      cases o with
      | tree | blob | tag => cases h
      | commit root parents =>
        have hdb := hwithin c _ hfind
        have hlink : db.Link c root := ⟨_, hdb, List.mem_cons_self⟩
        have hroot : ∀ o, db.find root = some o → o.kind = .tree := fun o ho =>
          hkinds c _ root .tree o hc hdb List.mem_cons_self ho
        have hout : root ∉ [c] := by
          intro hself
          obtain rfl := List.mem_singleton.mp hself
          exact not_cycle root (.single hlink)
        have htakes : Takes db.toOdb c set (c :: set) := by
          have hinsert : Takes db.toOdb c set (set.insert c) := .insert c set
          rwa [List.insert_of_not_mem hmem] at hinsert
        have hinside := hunderway.enter htakes (l := []) (by simp)
        rw [List.append_nil] at hinside
        dsimp only at h hwhole ⊢
        have hwalked : Walked db.toOdb loc repo.sizes filter (rootMeetings loc filter false root)
            (c :: set) set' := by
          split_ifs at h with hskips
          · cases h
            have htaken := hskips.resolve_left hzero
            have hopened := walked_again hsteady hroot hinside hout hwhole htaken
            exact ⟨List.Subset.refl _, List.forall_mem_cons.mpr ⟨hopened, hopened.below hwithin⟩,
              fun _ hx => Or.inl hx⟩
          · have hnew := (not_or.mp hskips).2
            have htaken : Takes db.toOdb root (c :: set) ((c :: set).insert root) := .insert root _
            rw [List.insert_of_not_mem hnew] at htaken
            exact walked_fresh (walkTree_walked hwithin hkinds hsteady (hc.link hlink)) hinside
              (by simpa using .single hlink) hroot hwhole htaken List.mem_cons_self h
        refine hwalked.leave [] htakes (by simp) fun o ho => ?_
        rw [hdb, Option.some.injEq] at ho
        subst ho
        exact hwalked.opened ⟨root, 0, false⟩ List.mem_cons_self

end Commits

section Quiet

variable {db : ObjectGraph} {repo : Repo db.toOdb} {loc : Odb} {filter : PackFilter}
variable {wants : List Oid} {sizes : Oid → ℕ}
variable (hwithin : loc.Within db.toOdb) (hkinds : Typed db.toOdb wants)

theorem diffEntry_quiet {diff : Oid → List Old → Found → Except UploadError Found}
    {walk : Oid → List Oid → Except UploadError (List Oid)} {depth : ℕ} {e : TreeEntry}
    {s s' : Found}
    (hdiff : ∀ {s}, e.mode = .tree → diff e.oid [] s = .ok s' → s'.missing = [] →
      s.missing = [] ∧ walk e.oid s.set = .ok s'.set)
    (h : diffEntry loc sizes filter diff [] depth s e = .ok s') (hquiet : s'.missing = []) :
    s.missing = [] ∧ walkEntry loc sizes filter walk depth s.set e = .ok s'.set := by
  have hchanged : unchanged loc [] e = false := rfl
  unfold diffEntry at h
  unfold walkEntry
  cases hmode : e.mode with
  | commit =>
    rw [if_pos hmode] at h
    cases h
    exact ⟨hquiet, rfl⟩
  | blob =>
    rw [if_neg (by simp [hmode]), hchanged, if_neg (by simp), if_neg (by simp [hmode])] at h
    rw [if_neg (by simp), if_neg (by simp)]
    split_ifs at h ⊢ with hskips
    · cases h
      exact ⟨hquiet, rfl⟩
    · cases h
      exact ⟨hquiet, rfl⟩
  | tree =>
    rw [if_neg (by simp [hmode]), hchanged, if_neg (by simp), if_pos hmode] at h
    rw [if_pos rfl]
    split_ifs at h ⊢ with hskips hmem
    · cases h
      exact ⟨hquiet, rfl⟩
    · cases h
      exact ⟨hquiet, rfl⟩
    · exact hdiff hmode h hquiet

include hwithin hkinds in
/-- A diff against nothing that missed nothing is a walk. -/
theorem diffTree_quiet {fuel : ℕ} {t : Oid} {depth : ℕ} {s s' : Found} (ht : db.Reached wants t)
    (htree : ∀ o, db.find t = some o → o.kind = .tree)
    (h : diffTree loc sizes filter fuel t [] depth s = .ok s') (hquiet : s'.missing = []) :
    s.missing = [] ∧ walkTree loc sizes filter fuel t depth s.set = .ok s'.set := by
  induction fuel generalizing t depth s s' with
  | zero => cases h
  | succ fuel ih =>
    rw [diffTree] at h
    rw [walkTree]
    cases hfind : loc.find t with
    | none =>
      simp only [treeEntries, hfind] at h
      cases h
      simp [Found.miss] at hquiet
    | some o =>
      have hdb := hwithin t o hfind
      have hkind := htree o hdb
      cases o with
      | commit | blob | tag => cases hkind
      | tree entries =>
        rw [treeEntries_tree hfind] at h
        refine Checks.foldlM_quiet (p := Found.set) (Q := fun s => s.missing = []) ?_ h hquiet
        intro e he s s' hstep hquiet
        refine diffEntry_quiet (fun hmode hd hquiet => ?_) hstep hquiet
        refine ih (ht.link (.of_entry hdb he (by simp [hmode]))) (fun o ho => ?_) hd hquiet
        have hnamed := hkinds t _ e.oid e.mode.kind o ht hdb
          (List.mem_map_of_mem (f := fun e => (e.oid, e.mode.kind)) he) ho
        rw [hnamed, hmode]
        rfl

include hwithin hkinds in
theorem takeCommit_quiet {c : Oid} {s s' : Found × ℕ} (hc : db.Reached wants c)
    (h : takeCommit repo loc filter false [] s c = .ok s') (hquiet : s'.1.missing = []) :
    s.1.missing = [] ∧ takeLocalCommit repo loc filter false s.1.set c = .ok s'.1.set := by
  unfold takeCommit at h
  unfold takeLocalCommit
  by_cases hmem : c ∈ s.1.set
  · rw [if_pos (Or.inr hmem)] at h
    cases h
    exact ⟨hquiet, by rw [if_pos hmem]⟩
  · rw [if_neg (by simpa using hmem)] at h
    rw [if_neg hmem, if_neg (by simp)]
    have hinsert : (s.1.insert c).set = c :: s.1.set := List.insert_of_not_mem hmem
    cases hfind : loc.find c with
    | none =>
      rw [hfind] at h
      cases h
      simp [Found.miss] at hquiet
    | some o =>
      rw [hfind] at h
      cases o with
      | tree | blob | tag => cases h
      | commit root parents =>
        have hdb := hwithin c _ hfind
        dsimp only at h ⊢
        split_ifs at h with hzero hwhole
        · cases h
          exact ⟨hquiet, by rw [if_pos (Or.inl hzero), hinsert]⟩
        · obtain ⟨found, hfound, h⟩ := Checks.bind_eq_ok.mp h
          cases h
          unfold diffRoot at hfound
          rw [hinsert] at hfound
          split_ifs at hfound with hroot
          · cases hfound
            exact ⟨hquiet, by rw [if_pos (Or.inr hroot), hinsert]⟩
          · have hlink : db.Link c root := ⟨_, hdb, List.mem_cons_self⟩
            obtain ⟨hquiet, hwalk⟩ := diffTree_quiet hwithin hkinds (hc.link hlink)
              (fun o ho => hkinds c _ root .tree o hc hdb List.mem_cons_self ho) hfound hquiet
            refine ⟨hquiet, ?_⟩
            rw [if_neg (by simp [hzero, List.mem_cons.not.mp hroot])]
            rwa [Found.insert, hinsert, List.insert_of_not_mem hroot] at hwalk
        · simp at hwhole

end Quiet

section Folds

variable {db : ObjectGraph} {repo : Repo db.toOdb} {loc : Odb} {filter : PackFilter}
variable {wants : List Oid} {want : Oid} {remote : Bool} {s s' s'' : List Oid × List Oid}
variable (hwithin : loc.Within db.toOdb) (hlocal : ∀ w ∈ wants, db.has w → loc.has w)

theorem WantAdded.refl (s : List Oid × List Oid) : WantAdded db.toOdb wants loc s s :=
  ⟨List.Subset.refl _, List.Subset.refl _, fun _ ht => Or.inl ht⟩

theorem WantAdded.trans (h : WantAdded db.toOdb wants loc s s')
    (h' : WantAdded db.toOdb wants loc s' s'') : WantAdded db.toOdb wants loc s s'' :=
  ⟨List.Subset.trans h.subset h'.subset, List.Subset.trans h.tips h'.tips, fun t ht =>
    (h'.led t ht).elim (h.led t) Or.inr⟩

theorem Gathered.mono (h : Gathered db.toOdb want s) (hadded : WantAdded db.toOdb wants loc s s') :
    Gathered db.toOdb want s' := fun t o ht ho =>
  (h t o ht ho).imp (fun htips hk => hadded.tips (htips hk)) fun htaken hk =>
    hadded.subset (htaken hk)

include hwithin hlocal in
theorem takeWants_added (h : wants.foldlM (takeWant repo loc filter remote) s = .ok s') :
    WantAdded db.toOdb wants loc s s' ∧ ∀ w ∈ wants, Gathered db.toOdb w s' :=
  Checks.foldlM_each (R := WantAdded db.toOdb wants loc) (P := Gathered db.toOdb) .refl
    (fun _ _ _ => WantAdded.trans) (fun _ _ _ => Gathered.mono)
    (fun w hw _ _ hstep => takeWant_added hwithin hw (hlocal w hw) hstep) h

include hwithin in
theorem takeWants_tips (htags : ∀ t o, Tagged loc wants t → loc.find t = some o → o.kind ≠ .commit)
    {l : List Oid} (hl : l ⊆ wants) (h : l.foldlM (takeWant repo loc filter remote) s = .ok s') :
    s'.2 = s.2 ++ l.filter (isCommit loc) := by
  induction l generalizing s with
  | nil =>
    cases h
    exact (List.append_nil _).symm
  | cons w l ih =>
    rw [List.foldlM_cons, Checks.bind_eq_ok] at h
    obtain ⟨s₁, hfirst, hrest⟩ := h
    rw [ih (fun x hx => hl (List.mem_cons_of_mem w hx)) hrest,
      takeWant_tips hwithin (hl List.mem_cons_self) htags hfirst, List.append_assoc,
      ← List.filter_append, List.singleton_append]

include hwithin in
/-- What a want leads to is local, and a tree there is walked unless only a tag leads to it. -/
theorem takeWant_chain (hwant : want ∈ wants) (hlocal : db.has want → loc.has want)
    (h : takeWant repo loc filter remote s want = .ok s') {t : Oid} {o : GitObject}
    (ht : Relation.ReflTransGen (TagOf db.toOdb) want t) (ho : db.find t = some o) :
    loc.find t = some o ∧ (o.kind = .tree → ⟨t, 0, true⟩ ∈ wantMeetings loc filter remote want ∨
      remote = false ∧ Tagged loc wants t) := by
  by_cases htag : ∃ target, loc.find want = some (.tag target)
  · obtain ⟨target, hfind⟩ := htag
    unfold takeWant at h
    rw [hfind] at h
    obtain ⟨⟨last, taken⟩, hchase, -⟩ := Checks.bind_eq_ok.mp h
    have hspec := chaseTag_spec hwithin List.mem_insert_self hchase
    rcases (hspec.chain t ht).2 with rfl | ⟨target', hfind'⟩
    · obtain ⟨o', ho', -⟩ := hspec.found
      obtain rfl : o' = o := Option.some.inj ((hwithin t o' ho').symm.trans ho)
      refine ⟨ho', fun hk => ?_⟩
      cases o' with
      | commit | tag | blob => cases hk
      | tree entries =>
        cases remote with
        | false => exact Or.inr ⟨rfl, hspec.tagged hwant hfind⟩
        | true =>
          left
          rw [wantMeetings, if_pos rfl, ← hspec.last_eq, ho']
          exact List.mem_cons_self
    · obtain rfl : GitObject.tag target' = o :=
        Option.some.inj ((hwithin t _ hfind').symm.trans ho)
      exact ⟨hfind', fun hk => by cases hk⟩
  · have hnot : ∀ target, loc.find want ≠ some (.tag target) := fun target hfind =>
      htag ⟨target, hfind⟩
    have hstay : t = want ∧ loc.find want = some o := by
      rcases Relation.ReflTransGen.cases_head ht with rfl | ⟨y, hy, -⟩
      · obtain ⟨o', ho'⟩ := Option.isSome_iff_exists.mp
          (hlocal (Option.isSome_iff_exists.mpr ⟨o, ho⟩))
        rw [ho', ← hwithin want o' ho', ho]
        exact ⟨rfl, rfl⟩
      · obtain ⟨o', ho'⟩ := Option.isSome_iff_exists.mp
          (hlocal (Option.isSome_iff_exists.mpr ⟨_, hy⟩))
        have hsame := hwithin want o' ho'
        rw [hy, Option.some.injEq] at hsame
        exact absurd (hsame ▸ ho') (hnot y)
    obtain ⟨rfl, hfind⟩ := hstay
    refine ⟨hfind, fun hk => Or.inl ?_⟩
    cases o with
    | commit | tag | blob => cases hk
    | tree entries =>
      rw [wantMeetings_of_not_tag hnot, hfind]
      exact List.mem_cons_self

end Folds

section Runs

/-- An enumeration under a filter that found everything it needed. -/
structure FilteredRun {db : ObjectGraph} (repo : Repo db.toOdb) (loc : Odb)
    (req : UploadPackRequest) (remote : Bool) (start : List Oid × List Oid)
    (commits set : List Oid) : Prop where
  within : loc.Within db.toOdb
  typed : Typed db.toOdb req.wants
  present : ∀ w ∈ req.wants, db.has w → loc.has w
  wants : req.wants.foldlM (takeWant repo loc req.packFilter remote) ([], []) = .ok start
  walk : walkCommits repo start.2 [] = .ok commits
  taken : commits.foldlM (takeLocalCommit repo loc req.packFilter false) start.1 = .ok set

variable {db : ObjectGraph} {repo : Repo db.toOdb} {loc : Odb} {req : UploadPackRequest}
variable {remote : Bool} {start : List Oid × List Oid} {commits set : List Oid}
variable (hrun : FilteredRun repo loc req remote start commits set)

include hrun in
theorem FilteredRun.gathered : ∀ w ∈ req.wants, Gathered db.toOdb w start :=
  (takeWants_added hrun.within hrun.present hrun.wants).2

include hrun in
theorem FilteredRun.mem_commits {c : Oid} :
    c ∈ commits ↔ ∃ t ∈ start.2, db.Ancestor t c := by
  simp [mem_walkCommits hrun.walk]

include hrun in
theorem FilteredRun.subset : start.1 ⊆ set ∧ ∀ c ∈ commits, c ∈ set :=
  Checks.foldlM_each (R := fun set set' : List Oid => set ⊆ set') (P := fun c set => c ∈ set)
    List.Subset.refl (fun _ _ _ => List.Subset.trans) (fun _ _ _ hc hsub => hsub hc)
    (fun _ _ _ _ hstep => takeLocalCommit_takes hstep) hrun.taken

include hrun in
theorem FilteredRun.commits_sent {c : Oid} (hc : c ∈ commits) : Sent db.toOdb req.wants [] c := by
  obtain ⟨t, ht, htc⟩ := hrun.mem_commits.mp hc
  have hled := ((takeWants_added hrun.within hrun.present hrun.wants).1.led t ht).resolve_left
    (by simp)
  obtain ⟨w, hw, hwt⟩ := hled.1
  exact ⟨⟨w, hw, t, hwt, htc⟩, by simp⟩

include hrun in
/-- The commits that the wants lead to are walked. -/
theorem FilteredRun.sent_mem {c root : Oid} {parents : List Oid}
    (hc : Sent db.toOdb req.wants [] c) (hfind : db.find c = some (.commit root parents)) :
    c ∈ commits := by
  obtain ⟨⟨w, hw, t, hwt, htc⟩, -⟩ := hc
  have hcommit : ∃ root parents, db.find t = some (.commit root parents) := by
    rcases Relation.ReflTransGen.cases_head htc with rfl | ⟨p, hp, -⟩
    · exact ⟨root, parents, hfind⟩
    · obtain ⟨root', parents', ht, -⟩ := Odb.mem_parentsOf.mp hp
      exact ⟨root', parents', ht⟩
  obtain ⟨root', parents', ht⟩ := hcommit
  exact hrun.mem_commits.mpr ⟨t, (hrun.gathered w hw t _ hwt ht).1 rfl, htc⟩

include hrun in
/-- What the wants lead to is taken, or walked if it is a commit. -/
theorem FilteredRun.led_mem {t : Oid} {o : GitObject} (ht : LedTo db.toOdb req.wants t)
    (ho : db.find t = some o) (hkind : o.kind ≠ .commit) : t ∈ set := by
  obtain ⟨w, hw, hwt⟩ := ht
  exact hrun.subset.1 ((hrun.gathered w hw t o hwt ho).2 hkind)

include hrun in
/-- The walks of an enumeration open every tree that they come to. -/
theorem FilteredRun.walked (hzero : req.packFilter ≠ .tree 0)
    (hexposed : Exposed repo loc req remote) :
    Walked db.toOdb loc repo.sizes req.packFilter
      (req.wants.flatMap (wantMeetings loc req.packFilter remote) ++
        commits.flatMap (commitMeetings loc req.packFilter)) [] set := by
  have htags : ∀ t o, Tagged loc req.wants t → loc.find t = some o → o.kind ≠ .commit :=
    fun t o ht ho => (hexposed.tags t o ht ho).1
  have htips : start.2 = req.wants.filter (isCommit loc) := by
    have h := takeWants_tips hrun.within htags (List.Subset.refl _) hrun.wants
    rwa [List.nil_append] at h
  have hsteady := fun max hmax => hexposed.trees max hmax commits (htips ▸ hrun.walk)
  have hbegin : Underway db.toOdb loc repo.sizes req.packFilter [] [] [] := ⟨by simp, by simp⟩
  have hwants := (Walked.of_fold (π := Prod.fst) (Q := fun _ => True)
    (fun w hw _ _ _ hstep _ => ⟨trivial, fun hunderway hwhole =>
      takeWant_walked hrun.within hrun.typed hsteady hw (hrun.present w hw) hzero hexposed.tags
        hstep hunderway hwhole⟩) hrun.wants trivial).2 hbegin (List.prefix_append _ _)
  refine hwants.trans ?_
  refine (Walked.of_fold (π := id) (Q := fun _ => True)
    (fun c hc _ _ _ hstep _ => ⟨trivial, fun hunderway hwhole =>
      takeLocalCommit_walked hrun.within hrun.typed hsteady (hrun.commits_sent hc).reached hzero
        hunderway hwhole hstep⟩) hrun.taken trivial).2 (hbegin.walked hwants) ?_
  simpa only [List.nil_append] using List.prefix_rfl

include hrun in
/-- A tree is opened at every depth it has, by induction on the path. -/
theorem FilteredRun.opened (hzero : req.packFilter ≠ .tree 0)
    (hexposed : Exposed repo loc req remote) {t : Oid} {depth : ℕ}
    (h : Below db.toOdb req.wants t depth) {entries : List TreeEntry}
    (hfind : db.find t = some (.tree entries)) :
    Opened db.toOdb loc repo.sizes req.packFilter set depth t := by
  have hwalked := hrun.walked hzero hexposed
  induction h generalizing entries with
  | @want t h =>
    obtain ⟨w, hw, hwt⟩ := h
    obtain ⟨s, s', hstep⟩ := Checks.foldlM_mem hrun.wants w hw
    obtain ⟨hlocal, htree⟩ := takeWant_chain hrun.within hw (hrun.present w hw) hstep hwt hfind
    rcases htree rfl with hmeet | ⟨hremote, htagged⟩
    · exact hwalked.opened _ (List.mem_append_left _ (List.mem_flatMap.mpr ⟨w, hw, hmeet⟩))
    · exact absurd rfl ((hexposed.tags t _ htagged hlocal).2 hremote)
  | @root c root parents hc hcommit =>
    have hmem := hrun.subset.2 c (hrun.sent_mem hc hcommit)
    exact (hwalked.accounted c hmem).resolve_left (by simp) _ hcommit
  | @entry t depth entries' e ht htree he hmode ih =>
    have hkind := hrun.typed t _ e.oid e.mode.kind _ ht.reached htree
      (List.mem_map_of_mem (f := fun e => (e.oid, e.mode.kind)) he) hfind
    refine (ih htree).entry htree he ?_
    cases hm : e.mode with
    | tree => rfl
    | commit | blob => rw [hm] at hkind; cases hkind

/-- A blob that the filter admits is not skipped. -/
theorem not_skipsBlob {db loc : Odb} {wants : List Oid} {sizes : Oid → ℕ} {filter : PackFilter}
    {x : Oid} (h : Admits db wants sizes x filter .blob) :
    skipsBlob loc sizes filter x = false := by
  cases filter with
  | none | tree => rfl
  | blobNone => exact h.elim
  | blobLimit limit =>
    have hle : sizes x ≤ limit := h
    simp [skipsBlob, hle]

include hrun in
/-- An admitted tree or blob is taken. -/
theorem FilteredRun.below_mem (hzero : req.packFilter ≠ .tree 0)
    (hexposed : Exposed repo loc req remote) {x : Oid} {o : GitObject} (ho : db.find x = some o)
    (hkind : o.kind ≠ .commit) (hadmits : o.kind = .blob →
      skipsBlob loc repo.sizes req.packFilter x = false) {depth : ℕ}
    (h : Below db.toOdb req.wants x depth)
    (hdepth : ∀ max, req.packFilter = .tree max → depth < max) : x ∈ set := by
  have hwalked := hrun.walked hzero hexposed
  cases h with
  | want h => exact hrun.led_mem h ho hkind
  | @root c root parents hc hcommit =>
    have hmem := hrun.subset.2 c (hrun.sent_mem hc hcommit)
    have hopened : Opened db.toOdb loc repo.sizes req.packFilter set 0 x :=
      (hwalked.accounted c hmem).resolve_left (by simp) _ hcommit
    exact (hopened 0 fun _ _ => Nat.zero_le _).mem
  | @entry t depth entries e ht htree he hmode =>
    have hnamed := hrun.typed t _ e.oid e.mode.kind o ht.reached htree
      (List.mem_map_of_mem (f := fun e => (e.oid, e.mode.kind)) he) ho
    have hopened := hrun.opened hzero hexposed ht htree 1 fun max hmax => by
      have := hdepth max hmax
      omega
    obtain ⟨hsub, hblob⟩ := hopened.2 entries htree e he
    cases hm : e.mode with
    | tree => exact hsub hm
    | blob => exact hblob hm (hadmits (by rw [hnamed, hm]; rfl))
    | commit => exact absurd hm hmode

include hrun in
/-- What the filter admits is taken. -/
theorem FilteredRun.complete (hexposed : req.packFilter = .tree 0 ∨ Exposed repo loc req remote)
    {x : Oid} {o : GitObject} (hx : db.Reached req.wants x) (ho : db.find x = some o)
    (hadmits : Admits db.toOdb req.wants repo.sizes x req.packFilter o) : x ∈ set := by
  have hplaced := hrun.typed.placed hx ho
  cases o with
  | commit root parents => exact hrun.subset.2 x (hrun.sent_mem hplaced ho)
  | tag target => exact hrun.led_mem hplaced ho (by simp [GitObject.kind])
  | tree | blob =>
    obtain ⟨depth, hbelow, hdepth⟩ : ∃ depth, Below db.toOdb req.wants x depth ∧
        ∀ max, req.packFilter = .tree max → depth < max := by
      cases hfilter : req.packFilter with
      | none | blobNone | blobLimit =>
        obtain ⟨depth, hbelow⟩ := hplaced
        exact ⟨depth, hbelow, fun max hmax => by cases hmax⟩
      | tree max =>
        rw [hfilter] at hadmits
        obtain ⟨depth, hlt, hbelow⟩ := hadmits
        refine ⟨depth, hbelow, fun max' hmax => ?_⟩
        cases hmax
        exact hlt
    have hzero : req.packFilter ≠ .tree 0 := fun hzero =>
      absurd (hdepth 0 hzero) (Nat.not_lt_zero depth)
    refine hrun.below_mem hzero (hexposed.resolve_left hzero) ho (by simp [GitObject.kind]) ?_
      hbelow hdepth
    first
    | exact fun _ => not_skipsBlob hadmits
    | exact fun hk => by cases hk

end Runs

section Enumerations

theorem typed_of_objects {db : Odb} (wants : List Oid)
    (h : ∀ entry ∈ db.objects, ∀ name ∈ entry.2.names, ∀ o ∈ db.find name.1, o.kind = name.2) :
    Typed db wants := by
  intro x o y k o' _ hx hy ho'
  obtain ⟨before, after, heq, -⟩ := List.lookup_eq_some_iff.mp hx
  exact h (x, o) (by simp [heq]) (y, k) hy o' ho'

/-- A commit with a file in a directory. -/
def nested : ObjectGraph :=
  graphOf [("c", .commit "r" []), ("r", .tree [⟨.tree, "s", "s"⟩]),
    ("s", .tree [⟨.blob, "f", "f"⟩]), ("f", .blob)] (by decide)

theorem nested_exposed : Exposed (searching nested) nested.toOdb
    { wants := ["c"], haves := [], filter := some "tree:3" } false where
  tags := by
    rintro t o ⟨w, hw, hwt⟩ -
    obtain ⟨z, hz, -⟩ := Relation.TransGen.head'_iff.mp hwt
    obtain ⟨before, after, heq, -⟩ := List.lookup_eq_some_iff.mp hz
    have hmem : (w, GitObject.tag z) ∈ nested.objects := by simp [heq]
    simp [nested, graphOf] at hmem
  trees := by
    intro max hmax commits hwalk
    have hcommits : walkCommits (searching nested) (["c"].filter (isCommit nested.toOdb)) [] =
        .ok ["c"] := by decide +kernel
    obtain rfl : ["c"] = commits := Except.ok.inj (hcommits.symm.trans hwalk)
    exact steady_of_nodup (by decide +kernel)

/-- A directory that is met deep down first, and then next to the root. -/
def deepFirst : ObjectGraph :=
  graphOf [("c", .commit "r" []), ("r", .tree [⟨.tree, "a", "a1"⟩, ⟨.tree, "b", "s"⟩]),
    ("a1", .tree [⟨.tree, "a", "a2"⟩]), ("a2", .tree [⟨.tree, "a", "a3"⟩]),
    ("a3", .tree [⟨.tree, "a", "s"⟩]), ("s", .tree [⟨.blob, "f", "f"⟩]), ("f", .blob)] (by decide)

/-- An annotated tag of a commit. -/
def annotated : ObjectGraph :=
  graphOf [("v1", .tag "c"), ("c", .commit "r" []), ("r", .tree [])] (by decide)

end Enumerations

end Walgit.UploadPack
