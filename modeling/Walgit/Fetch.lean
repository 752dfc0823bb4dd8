import Walgit.UploadPack

/-!
# Completeness of a fetch

A fetch by tree diffs is complete unless the set of what was taken hides something new. A tree
that is taken while one commit is diffed is not entered again for another one, although what is
unchanged in the first may be new in the second; a commit that a wanted tag leads to is in the set
before the walk comes to it; and what a tree names under a wrong mode is not entered at all.
-/
namespace Walgit

inductive Kind where
  | commit
  | tree
  | tag
  | blob
  deriving DecidableEq, Repr

namespace EntryMode

def kind : EntryMode → Kind
  | tree => .tree
  | commit => .commit
  | blob => .blob

end EntryMode

namespace GitObject

def kind : GitObject → Kind
  | commit _ _ => .commit
  | tree _ => .tree
  | tag _ => .tag
  | blob => .blob

/-- What an object names, with the kind it takes it for; a tag may name anything. -/
def names : GitObject → List (Oid × Kind)
  | commit root parents => (root, .tree) :: parents.map fun p => (p, .commit)
  | tree entries => entries.map fun e => (e.oid, e.mode.kind)
  | tag _ | blob => []

end GitObject

/-- A store without cycles: an object is named by the hash of what it names. -/
structure ObjectGraph extends Odb where
  acyclic : WellFounded fun y x => toOdb.Link x y

namespace UploadPack

section Graph

variable (db : Odb) (wants haves : List Oid)

/-- The tag `x` names `y`. -/
def TagOf (x y : Oid) : Prop := db.find x = some (.tag y)

/-- A wanted tag leads to the object. -/
def Tagged (c : Oid) : Prop := ∃ w ∈ wants, Relation.TransGen (TagOf db) w c

/-- A commit that the wants lead to and that the haves do not hide. -/
def Sent (c : Oid) : Prop :=
  (∃ w ∈ wants, ∃ t, Relation.ReflTransGen (TagOf db) w t ∧ db.Ancestor t c) ∧
    ∀ h ∈ haves, ¬ db.Ancestor h c

def parentTrees (parents : List Oid) : List Old :=
  parents.map fun p =>
    match db.find p with
    | some (.commit root _) => .tree root
    | _ => .absent

/-- Where the diff of a commit comes to, with the parents' subtrees there. -/
inductive DiffedAt (c : Oid) : Oid → List Old → Prop
  | root {root : Oid} {parents : List Oid} (hfind : db.find c = some (.commit root parents)) :
      DiffedAt c root (parentTrees db parents)
  | sub {t : Oid} {olds : List Old} {entries : List TreeEntry} {e : TreeEntry}
      (ht : DiffedAt c t olds) (hfind : db.find t = some (.tree entries)) (he : e ∈ entries)
      (hmode : e.mode = .tree) (hchanged : ¬ unchanged db olds e) :
      DiffedAt c e.oid (olds.map (subOld db e.filename))

/-- The object is reachable from a parent of the commit. -/
def InParent (c x : Oid) : Prop := ∃ p ∈ db.parentsOf c, db.Reaches p x

/-- Nothing new is hidden from the diffs. What the haves reach does not matter. -/
structure Clear : Prop where
  /-- Objects are named under their own kind. -/
  kinds : ∀ x o y k o', db.Reached wants x → db.find x = some o → (y, k) ∈ o.names →
    db.find y = some o' → ¬ db.Reached haves y → o'.kind = k
  /-- What a tagged commit has, its parents have. -/
  tags : ∀ c root parents x, Tagged db wants c → db.find c = some (.commit root parents) →
    ¬ db.Reached haves c → db.Reaches root x → db.has x → db.Reached haves x ∨ InParent db c x
  /-- An entry that is unchanged where one commit comes to a tree brings nothing new to another
  commit that comes to the tree and finds it changed. -/
  trees : ∀ c c' t olds olds' entries e x, Sent db wants haves c → Sent db wants haves c' →
    DiffedAt db c t olds → DiffedAt db c' t olds' → db.find t = some (.tree entries) →
    e ∈ entries → e.mode ≠ .commit → ¬ unchanged db olds e → unchanged db olds' e →
    db.Reaches e.oid x → db.has x → db.Reached haves x ∨ InParent db c x

end Graph

section Local

variable {loc db : Odb}

theorem treeEntries_within (h : loc.Within db) {id : Oid} {entries : List TreeEntry}
    (hfind : treeEntries loc id = some entries) : treeEntries db id = some entries := by
  unfold treeEntries at hfind ⊢
  cases hloc : loc.find id with
  | none => simp [hloc] at hfind
  | some o => simpa only [h id o hloc, hloc] using hfind

theorem treeEntries_tree {id : Oid} {entries : List TreeEntry}
    (hfind : db.find id = some (.tree entries)) : treeEntries db id = some entries := by
  simp only [treeEntries, hfind]

/-- A parent's subtree that is not missing has its entries in the local store. -/
theorem Old.entries_within (h : loc.Within db) {old : Old} (hlocal : old.missing loc = []) :
    old.entries loc = old.entries db := by
  cases old with
  | absent => rfl
  | tree id =>
    cases hfind : treeEntries loc id with
    | none => simp [Old.missing, hfind] at hlocal
    | some entries => simp only [Old.entries, hfind, treeEntries_within h hfind]

variable {olds : List Old} (h : loc.Within db) (hlocal : olds.flatMap (Old.missing loc) = [])

include h hlocal in
theorem unchanged_within (e : TreeEntry) : unchanged loc olds e = unchanged db olds e := by
  unfold unchanged
  congr 1
  rw [Bool.eq_iff_iff, List.all_eq_true, List.all_eq_true]
  refine forall₂_congr fun old hold => ?_
  rw [Old.entries_within h (List.flatMap_eq_nil_iff.mp hlocal old hold)]

include h hlocal in
theorem subOld_within (name : String) :
    olds.map (subOld loc name) = olds.map (subOld db name) := by
  refine List.map_congr_left fun old hold => ?_
  rw [subOld, subOld, Old.entries_within h (List.flatMap_eq_nil_iff.mp hlocal old hold)]

end Local

section Settled

variable (db : Odb) (wants haves : List Oid) (loc : Odb) (diffed : Oid → List Old → Prop)

/-- What the set has of an object that is in it, given the diffs that were made. -/
def SettledAs (set : List Oid) (y : Oid) : GitObject → Prop
  | .commit root _ => Tagged loc wants y ∨ root ∈ set ∧ ∃ olds, diffed root olds
  | .tree entries => ∃ olds, (olds = [] ∨ diffed y olds) ∧
      ∀ e ∈ entries, e.mode ≠ .commit → unchanged db olds e ∨ e.oid ∈ set
  | .tag target => target ∈ set
  | .blob => True

def Settled (set : List Oid) (y : Oid) : Prop :=
  db.Reached haves y ∨ ∀ o, db.find y = some o →
    SettledAs db wants loc diffed set y o ∧ (o = .blob ∨ loc.find y = some o)

variable {db wants haves loc diffed} in
theorem Settled.of_blob {set : List Oid} {y : Oid} (hfind : db.find y = some .blob) :
    Settled db wants haves loc diffed set y := by
  refine Or.inr fun o ho => ?_
  rw [hfind, Option.some.injEq] at ho
  subst ho
  exact ⟨trivial, Or.inl rfl⟩

/-- The set grew, and what is new is settled. -/
def Advances (set set' : List Oid) : Prop :=
  set ⊆ set' ∧ ∀ y ∈ set', y ∈ set ∨ Settled db wants haves loc diffed set' y

/-- If nothing is missing in the end, nothing was missing and the set advanced. -/
def FoundAdvances (s s' : Found) : Prop :=
  s'.missing = [] → s.missing = [] ∧ Advances db wants haves loc diffed s.set s'.set

variable {db wants haves loc diffed} {set set' set'' : List Oid} {s s' s'' : Found} {y : Oid}

theorem Settled.mono (h : Settled db wants haves loc diffed set y) (hsub : set ⊆ set') :
    Settled db wants haves loc diffed set' y := by
  refine h.imp_right fun hsettled o ho => ?_
  obtain ⟨has, hlocal⟩ := hsettled o ho
  refine ⟨?_, hlocal⟩
  cases o with
  | commit root parents => exact has.imp_right fun hroot => ⟨hsub hroot.1, hroot.2⟩
  | tree entries =>
    obtain ⟨olds, hdiffed, hentries⟩ := has
    exact ⟨olds, hdiffed, fun e he hmode => (hentries e he hmode).imp_right fun hmem => hsub hmem⟩
  | tag target => exact hsub has
  | blob => trivial

theorem Advances.refl (set : List Oid) : Advances db wants haves loc diffed set set :=
  ⟨List.Subset.refl _, fun _ hy => Or.inl hy⟩

theorem Advances.trans (h : Advances db wants haves loc diffed set set')
    (h' : Advances db wants haves loc diffed set' set'') :
    Advances db wants haves loc diffed set set'' := by
  refine ⟨List.Subset.trans h.1 h'.1, fun y hy => ?_⟩
  rcases h'.2 y hy with hold | hnew
  · exact (h.2 y hold).imp_right fun hsettled => hsettled.mono h'.1
  · exact Or.inr hnew

/-- One object more, settled by what is in the set later. -/
theorem Advances.of_insert (h : Advances db wants haves loc diffed (set.insert y) set')
    (hy : Settled db wants haves loc diffed set' y) :
    Advances db wants haves loc diffed set set' ∧ y ∈ set' := by
  refine ⟨⟨fun z hz => h.1 (List.mem_insert_of_mem hz), fun z hz => ?_⟩, h.1 List.mem_insert_self⟩
  rcases h.2 z hz with hold | hnew
  · rcases List.mem_insert_iff.mp hold with rfl | hold
    · exact Or.inr hy
    · exact Or.inl hold
  · exact Or.inr hnew

theorem FoundAdvances.refl (s : Found) : FoundAdvances db wants haves loc diffed s s :=
  fun h => ⟨h, .refl _⟩

theorem FoundAdvances.trans (h : FoundAdvances db wants haves loc diffed s s')
    (h' : FoundAdvances db wants haves loc diffed s' s'') :
    FoundAdvances db wants haves loc diffed s s'' := by
  intro hquiet
  obtain ⟨hquiet', hadvances'⟩ := h' hquiet
  obtain ⟨hquiet, hadvances⟩ := h hquiet'
  exact ⟨hquiet, hadvances.trans hadvances'⟩

theorem FoundAdvances.of_insert (h : FoundAdvances db wants haves loc diffed (s.insert y) s')
    (hy : s'.missing = [] → Settled db wants haves loc diffed s'.set y) :
    FoundAdvances db wants haves loc diffed s s' ∧ (s'.missing = [] → y ∈ s'.set) := by
  refine ⟨fun hquiet => ?_, fun hquiet => ((h hquiet).2.of_insert (hy hquiet)).2⟩
  exact ⟨(h hquiet).1, ((h hquiet).2.of_insert (hy hquiet)).1⟩

theorem FoundAdvances.of_missing (h : s'.missing ≠ []) :
    FoundAdvances db wants haves loc diffed s s' :=
  fun hquiet => absurd hquiet h

/-- An object is settled if it is so when it has the kind it was named under. -/
theorem Clear.settled (hclear : Clear db wants haves) {x : Oid} {o : GitObject} {k : Kind}
    (hx : db.Reached wants x) (hfind : db.find x = some o) (hy : (y, k) ∈ o.names)
    (h : ∀ o', db.find y = some o' → o'.kind = k → SettledAs db wants loc diffed set y o' ∧
      (o' = .blob ∨ loc.find y = some o')) : Settled db wants haves loc diffed set y := by
  by_cases hheld : db.Reached haves y
  · exact Or.inl hheld
  · exact Or.inr fun o' ho' => h o' ho' (hclear.kinds x o y k o' hx hfind hy ho' hheld)

theorem Clear.settled_blob (hclear : Clear db wants haves) {t : Oid} {entries : List TreeEntry}
    {e : TreeEntry} (ht : db.Reached wants t) (hfind : db.find t = some (.tree entries))
    (he : e ∈ entries) (hmode : e.mode = .blob) :
    Settled db wants haves loc diffed set e.oid := by
  refine hclear.settled ht hfind (List.mem_map_of_mem (f := fun e => (e.oid, e.mode.kind)) he)
    fun o' _ hkind => ?_
  rw [hmode] at hkind
  cases o' with
  | blob => exact ⟨trivial, Or.inl rfl⟩
  | commit | tree | tag => cases hkind

end Settled

section Graph

variable {db : Odb} {wants haves : List Oid} {c : Oid}

theorem reaches_of_tags {x y : Oid} (h : Relation.ReflTransGen (TagOf db) x y) : db.Reaches x y :=
  Relation.ReflTransGen.mono (fun _ _ ht => ⟨_, ht, List.mem_singleton.mpr rfl⟩) x y h

theorem Sent.reached (h : Sent db wants haves c) : db.Reached wants c := by
  obtain ⟨⟨w, hw, t, hwt, htc⟩, -⟩ := h
  exact ⟨w, hw, (reaches_of_tags hwt).trans (Odb.Reaches.of_ancestor htc)⟩

theorem DiffedAt.reaches {t : Oid} {olds : List Old} (h : DiffedAt db c t olds) :
    db.Reaches c t := by
  induction h with
  | root hfind => exact .single ⟨_, hfind, List.mem_cons_self⟩
  | sub ht hfind he hmode hchanged ih =>
    exact ih.tail (.of_entry hfind he (by simp [hmode]))

end Graph

section Diffs

variable {db : Odb} {wants haves : List Oid} {loc : Odb} {sizes : Oid → ℕ} {c : Oid}

/-- The diffs of the commits that are sent. -/
def Diffs (db : Odb) (wants haves : List Oid) (t : Oid) (olds : List Old) : Prop :=
  ∃ c, Sent db wants haves c ∧ DiffedAt db c t olds

theorem find_of_mem_treeEntries {t : Oid} {entries : List TreeEntry} {e : TreeEntry}
    (h : treeEntries loc t = some entries) (he : e ∈ entries) :
    loc.find t = some (.tree entries) := by
  unfold treeEntries at h
  split at h
  · cases h
  · rename_i hfind
    cases h
    exact hfind
  · cases h
    cases he

/-- What could be read is local. -/
theorem find_of_treeEntries (hwithin : loc.Within db) {t : Oid} {entries : List TreeEntry}
    (h : treeEntries loc t = some entries) {o : GitObject} (ho : db.find t = some o) :
    loc.find t = some o := by
  cases hfind : loc.find t with
  | none => simp [treeEntries, hfind] at h
  | some o' => rw [← ho, hwithin t o' hfind]

/-- The tree is local, and what its diff found changed is taken. -/
def TreeTaken (db loc : Odb) (t : Oid) (olds : List Old) (set : List Oid) : Prop :=
  ∀ entries, db.find t = some (.tree entries) → loc.find t = some (.tree entries) ∧
    ∀ e ∈ entries, e.mode ≠ .commit → unchanged db olds e ∨ e.oid ∈ set

/-- What the diff of a tree does, if nothing is missing in the end. -/
def DiffSpec (db : Odb) (wants haves : List Oid) (loc : Odb) (t : Oid) (olds : List Old)
    (s s' : Found) : Prop :=
  FoundAdvances db wants haves loc (Diffs db wants haves) s s' ∧
    (s'.missing = [] → TreeTaken db loc t olds s'.set)

theorem DiffSpec.of_missing {t : Oid} {olds : List Old} {s s' : Found} (h : s'.missing ≠ []) :
    DiffSpec db wants haves loc t olds s s' :=
  ⟨.of_missing h, fun hquiet => absurd hquiet h⟩

variable (hwithin : loc.Within db) (hclear : Clear db wants haves) (hsent : Sent db wants haves c)

include hclear hsent in
/-- A tree that was inserted and then diffed is settled. -/
theorem DiffSpec.settled {x t : Oid} {o : GitObject} {olds : List Old} {s s' : Found}
    (h : DiffSpec db wants haves loc t olds s s') (hx : db.Reached wants x)
    (hfind : db.find x = some o) (ht : (t, Kind.tree) ∈ o.names) (hat : DiffedAt db c t olds)
    (hquiet : s'.missing = []) : Settled db wants haves loc (Diffs db wants haves) s'.set t := by
  refine hclear.settled hx hfind ht fun o' ho' hkind => ?_
  cases o' with
  | tree entries =>
    obtain ⟨hlocal, hentries⟩ := h.2 hquiet entries ho'
    exact ⟨⟨olds, Or.inr ⟨c, hsent, hat⟩, hentries⟩, Or.inr hlocal⟩
  | commit | blob | tag => cases hkind

include hwithin hclear hsent in
theorem diffEntry_spec {diff : Oid → List Old → Found → Except UploadError Found} {t : Oid}
    {olds : List Old} {entries : List TreeEntry} {e : TreeEntry} {depth : ℕ} {s s' : Found}
    (hdiff : ∀ {id : Oid} {olds : List Old} {s s' : Found}, DiffedAt db c id olds →
      diff id olds s = .ok s' → DiffSpec db wants haves loc id olds s s')
    (hat : DiffedAt db c t olds) (hfind : db.find t = some (.tree entries)) (he : e ∈ entries)
    (hlocal : olds.flatMap (Old.missing loc) = [])
    (h : diffEntry loc sizes .none diff olds depth s e = .ok s') :
    FoundAdvances db wants haves loc (Diffs db wants haves) s s' ∧
      (s'.missing = [] → e.mode ≠ .commit → unchanged db olds e ∨ e.oid ∈ s'.set) := by
  have ht : db.Reached wants t := hsent.reached.trans hat.reaches
  rw [diffEntry, unchanged_within hwithin hlocal, subOld_within hwithin hlocal] at h
  split_ifs at h with hgitlink hsame htree hskip hmem hskip
  · cases h
    exact ⟨.refl s, fun _ hmode => absurd hgitlink hmode⟩
  · cases h
    exact ⟨.refl s, fun _ _ => Or.inl hsame⟩
  · cases hskip
  · cases h
    exact ⟨.refl s, fun _ _ => Or.inr hmem⟩
  · have hsub := DiffedAt.sub hat hfind he htree hsame
    have hspec := hdiff hsub h
    have hnamed : (e.oid, Kind.tree) ∈ (GitObject.tree entries).names :=
      List.mem_map.mpr ⟨e, he, by rw [htree]; rfl⟩
    obtain ⟨hadvances, htaken⟩ := hspec.1.of_insert fun hquiet =>
      hspec.settled hclear hsent ht hfind hnamed hsub hquiet
    exact ⟨hadvances, fun hquiet _ => Or.inr (htaken hquiet)⟩
  · cases hskip
  · cases h
    have hblob : e.mode = .blob := by
      cases hmode : e.mode with
      | blob => rfl
      | tree => exact absurd hmode htree
      | commit => exact absurd hmode hgitlink
    obtain ⟨hadvances, htaken⟩ := (FoundAdvances.refl (s.insert e.oid)).of_insert fun _ =>
      hclear.settled_blob ht hfind he hblob
    exact ⟨hadvances, fun hquiet _ => Or.inr (htaken hquiet)⟩

include hwithin hclear hsent in
/-- A tree that is diffed is taken, and all that is new below it is settled. -/
theorem diffTree_spec {fuel : ℕ} {t : Oid} {olds : List Old} {depth : ℕ} {s s' : Found}
    (hat : DiffedAt db c t olds) (h : diffTree loc sizes .none fuel t olds depth s = .ok s') :
    DiffSpec db wants haves loc t olds s s' := by
  induction fuel generalizing t olds depth s s' with
  | zero => cases h
  | succ fuel ih =>
    rw [diffTree] at h
    split at h
    · cases h
      exact .of_missing (by simp [Found.miss])
    · rename_i entries hentries
      split at h
      · rename_i hlocal
        have hfind : ∀ e ∈ entries, loc.find t = some (.tree entries) :=
          fun e he => find_of_mem_treeEntries hentries he
        obtain ⟨hadvances, htaken⟩ := Checks.foldlM_each
          (R := FoundAdvances db wants haves loc (Diffs db wants haves))
          (P := fun e s => s.missing = [] → e.mode ≠ .commit → unchanged db olds e ∨ e.oid ∈ s.set)
          FoundAdvances.refl (fun _ _ _ => FoundAdvances.trans)
          (by
            intro e s s' hs hadvances hquiet hmode
            obtain ⟨hquiet', hsub, -⟩ := hadvances hquiet
            exact (hs hquiet' hmode).imp_right fun hmem => hsub hmem)
          (fun e he s s' hstep => diffEntry_spec hwithin hclear hsent (fun hat hd => ih hat hd) hat
            (hwithin t _ (hfind e he)) he hlocal hstep) h
        refine ⟨hadvances, fun hquiet es hes => ?_⟩
        have hsame := treeEntries_within hwithin hentries
        rw [treeEntries_tree hes, Option.some.injEq] at hsame
        subst hsame
        exact ⟨find_of_treeEntries hwithin hentries hes, fun e he => htaken e he hquiet⟩
      · rename_i ids hids
        cases h
        refine .of_missing fun hquiet => hids ?_
        exact (List.append_eq_nil_iff.mp hquiet).2

theorem parentTrees_of_foldlM (hwithin : loc.Within db) {parents : List Oid} {olds olds' : List Old}
    {missing : List Oid} (h : parents.foldlM (parentTree loc) (olds, missing) = .ok (olds', [])) :
    missing = [] ∧ olds' = olds ++ parentTrees db parents := by
  induction parents generalizing olds missing with
  | nil =>
    cases h
    exact ⟨rfl, (List.append_nil _).symm⟩
  | cons p parents ih =>
    rw [List.foldlM_cons, Checks.bind_eq_ok] at h
    obtain ⟨⟨olds₁, missing₁⟩, hstep, hrest⟩ := h
    obtain ⟨rfl, rfl⟩ := ih hrest
    unfold parentTree at hstep
    split at hstep
    · rename_i root parents' hfind
      cases hstep
      exact ⟨rfl, by simp [parentTrees, hwithin p _ hfind]⟩
    · cases hstep
    · simp only [Except.ok.injEq, Prod.mk.injEq] at hstep
      simp at hstep

include hwithin hclear hsent in
theorem diffRoot_spec {repo : Repo db} {root : Oid} {parents : List Oid} {s s' : Found}
    (hfind : db.find c = some (.commit root parents))
    (h : diffRoot repo loc .none root (parentTrees db parents) s = .ok s') :
    FoundAdvances db wants haves loc (Diffs db wants haves) s s' ∧
      (s'.missing = [] → root ∈ s'.set) := by
  rw [diffRoot] at h
  split_ifs at h with hmem
  · cases h
    exact ⟨.refl s, fun _ => hmem⟩
  · have hat := DiffedAt.root hfind
    have hspec := diffTree_spec hwithin hclear hsent hat h
    exact hspec.1.of_insert fun hquiet =>
      hspec.settled hclear hsent hsent.reached hfind List.mem_cons_self hat hquiet

include hwithin hclear hsent in
/-- A commit of the walk is hidden or taken. -/
theorem takeCommit_spec {repo : Repo db} {hidden : List Oid} {s s' : Found × ℕ}
    (h : takeCommit repo loc .none true hidden s c = .ok s') :
    FoundAdvances db wants haves loc (Diffs db wants haves) s.1 s'.1 ∧
      (s'.1.missing = [] → c ∈ hidden ∨ c ∈ s'.1.set) := by
  unfold takeCommit at h
  by_cases hskip : c ∈ hidden ∨ c ∈ s.1.set
  · rw [if_pos hskip] at h
    cases h
    exact ⟨.refl _, fun _ => hskip⟩
  · rw [if_neg hskip] at h
    dsimp only at h
    split at h
    · cases h
      have hmissing : ((s.1.insert c).miss [c]).missing ≠ [] := by simp [Found.miss]
      exact ⟨.of_missing hmissing, fun hquiet => absurd hquiet hmissing⟩
    · rename_i root parents hfind
      have hdb := hwithin c _ hfind
      have hroot : ∀ {found : Found},
          diffRoot repo loc .none root (parentTrees db parents) (s.1.insert c) = .ok found →
          FoundAdvances db wants haves loc (Diffs db wants haves) s.1 found ∧
            (found.missing = [] → c ∈ hidden ∨ c ∈ found.set) := by
        intro found hd
        obtain ⟨hadvances, hmem⟩ := diffRoot_spec hwithin hclear hsent hdb hd
        obtain ⟨hadvances, hc⟩ := hadvances.of_insert fun hquiet => Or.inr fun o ho => by
          rw [hdb, Option.some.injEq] at ho
          subst ho
          exact ⟨Or.inr ⟨hmem hquiet, _, c, hsent, .root hdb⟩, Or.inr hfind⟩
        exact ⟨hadvances, fun hquiet => Or.inr (hc hquiet)⟩
      rw [if_neg (by simp)] at h
      split_ifs at h with hempty
      · rw [Checks.bind_eq_ok] at h
        obtain ⟨found, hd, h⟩ := h
        cases h
        rw [Bool.or_eq_true, List.isEmpty_iff] at hempty
        obtain rfl : parents = [] := hempty.resolve_right (by simp)
        exact hroot hd
      · rw [Checks.bind_eq_ok] at h
        obtain ⟨⟨olds, missing⟩, hparents, h⟩ := h
        split_ifs at h with hmissing
        · cases h
          have hlater : (((s.1.insert c).miss missing).remove c).missing ≠ [] := by
            simp [Found.miss, Found.remove, hmissing]
          exact ⟨.of_missing hlater, fun hquiet => absurd hquiet hlater⟩
        · rw [Checks.bind_eq_ok] at h
          obtain ⟨found, hd, h⟩ := h
          cases h
          obtain rfl : missing = [] := not_not.mp hmissing
          obtain ⟨-, rfl⟩ := parentTrees_of_foldlM hwithin hparents
          exact hroot hd
    · cases h

end Diffs

section Wants

variable {db : Odb} {wants haves : List Oid} {loc : Odb} {sizes : Oid → ℕ}

/-- While the wants are sorted no tree is diffed. -/
def NoDiffs (_ : Oid) (_ : List Old) : Prop := False

variable (hwithin : loc.Within db) (hclear : Clear db wants haves)

theorem settledAs_tree {diffed : Oid → List Old → Prop} {set : List Oid} {t : Oid}
    {entries : List TreeEntry} (h : TreeTaken db loc t [] set)
    (hfind : db.find t = some (.tree entries)) :
    SettledAs db wants loc diffed set t (.tree entries) ∧
      (GitObject.tree entries = .blob ∨ loc.find t = some (.tree entries)) := by
  obtain ⟨hlocal, hentries⟩ := h entries hfind
  exact ⟨⟨[], Or.inl rfl, hentries⟩, Or.inr hlocal⟩

include hclear in
theorem walkEntry_spec {walk : Oid → List Oid → Except UploadError (List Oid)} {t : Oid}
    {entries : List TreeEntry} {e : TreeEntry} {depth : ℕ} {set set' : List Oid}
    (hwalk : ∀ {id : Oid} {set set' : List Oid}, db.Reached wants id → walk id set = .ok set' →
      Advances db wants haves loc NoDiffs set set' ∧ TreeTaken db loc id [] set')
    (ht : db.Reached wants t) (hfind : db.find t = some (.tree entries)) (he : e ∈ entries)
    (h : walkEntry loc sizes .none walk depth set e = .ok set') :
    Advances db wants haves loc NoDiffs set set' ∧ (e.mode ≠ .commit → e.oid ∈ set') := by
  rw [walkEntry] at h
  split_ifs at h with htree hskip hmem hgitlink hskip
  · cases hskip
  · cases h
    exact ⟨.refl set, fun _ => hmem⟩
  · obtain ⟨hadvances, htaken⟩ := hwalk (ht.link (.of_entry hfind he (by simp [htree]))) h
    obtain ⟨hadvances, hmem⟩ := hadvances.of_insert <| hclear.settled ht hfind
      (List.mem_map_of_mem (f := fun e => (e.oid, e.mode.kind)) he) fun o' ho' hkind => by
        rw [htree] at hkind
        cases o' with
        | tree entries' => exact settledAs_tree htaken ho'
        | commit | blob | tag => cases hkind
    exact ⟨hadvances, fun _ => hmem⟩
  · cases h
    exact ⟨.refl set, fun hmode => absurd hgitlink hmode⟩
  · cases hskip
  · cases h
    have hblob : e.mode = .blob := by
      cases hmode : e.mode with
      | blob => rfl
      | tree => exact absurd hmode htree
      | commit => exact absurd hmode hgitlink
    obtain ⟨hadvances, hmem⟩ := (Advances.refl (set.insert e.oid)).of_insert
      (hclear.settled_blob ht hfind he hblob)
    exact ⟨hadvances, fun _ => hmem⟩

include hwithin hclear in
/-- A tree that is walked is taken whole. -/
theorem walkTree_spec {fuel : ℕ} {id : Oid} {depth : ℕ} {set set' : List Oid}
    (hid : db.Reached wants id) (h : walkTree loc sizes .none fuel id depth set = .ok set') :
    Advances db wants haves loc NoDiffs set set' ∧ TreeTaken db loc id [] set' := by
  induction fuel generalizing id depth set set' with
  | zero => cases h
  | succ fuel ih =>
    rw [walkTree] at h
    split at h
    · rename_i entries hfind
      obtain ⟨hadvances, htaken⟩ := Checks.foldlM_each
        (R := Advances db wants haves loc NoDiffs)
        (P := fun e set => e.mode ≠ .commit → e.oid ∈ set)
        Advances.refl (fun _ _ _ => Advances.trans)
        (by
          intro e set set' hmem hadvances hmode
          exact hadvances.1 (hmem hmode))
        (fun e he set set' hstep => walkEntry_spec hclear (fun hid hw => ih hid hw) hid
          (hwithin id _ hfind) he hstep) h
      refine ⟨hadvances, fun es hes => ?_⟩
      rw [hwithin id _ hfind, Option.some.injEq, GitObject.tree.injEq] at hes
      exact hes ▸ ⟨hfind, fun e he hmode => Or.inr (htaken e he hmode)⟩
    · cases h

/-- A want leads to the object through tags. -/
def LedTo (db : Odb) (wants : List Oid) (t : Oid) : Prop :=
  ∃ w ∈ wants, Relation.ReflTransGen (TagOf db) w t

/-- What sorting the wants does, if nothing is missing in the end. -/
structure WantedAdvances (db : Odb) (wants haves : List Oid) (loc : Odb) (s s' : Wanted) : Prop where
  found : FoundAdvances db wants haves loc NoDiffs s.found s'.found
  commits : s.commits ⊆ s'.commits
  led : ∀ t ∈ s'.commits, t ∈ s.commits ∨ LedTo db wants t

theorem WantedAdvances.refl (s : Wanted) : WantedAdvances db wants haves loc s s :=
  ⟨.refl _, List.Subset.refl _, fun _ ht => Or.inl ht⟩

theorem WantedAdvances.trans {s s' s'' : Wanted} (h : WantedAdvances db wants haves loc s s')
    (h' : WantedAdvances db wants haves loc s' s'') : WantedAdvances db wants haves loc s s'' :=
  ⟨h.found.trans h'.found, List.Subset.trans h.commits h'.commits, fun t ht =>
    (h'.led t ht).elim (h.led t) Or.inr⟩

/-- The commits that an object leads to through tags are walked from. -/
def TagsFollowed (loc : Odb) (cur : Oid) (commits : List Oid) : Prop :=
  ∀ y root parents, Relation.ReflTransGen (TagOf loc) cur y →
    loc.find y = some (.commit root parents) → y ∈ commits

theorem tagsFollowed_of_not_tag {cur : Oid} {commits : List Oid}
    (htag : ∀ target, loc.find cur ≠ some (.tag target))
    (hcommit : ∀ root parents, loc.find cur = some (.commit root parents) → cur ∈ commits) :
    TagsFollowed loc cur commits := by
  intro y root parents hy hfind
  rcases Relation.ReflTransGen.cases_head hy with rfl | ⟨z, hz, -⟩
  · exact hcommit root parents hfind
  · exact absurd hz (htag z)

/-- What following a tag leaves of an object on the way. -/
structure Followed (db : Odb) (wants : List Oid) (loc : Odb) (cur : Oid) (s : Wanted) : Prop where
  tags : TagsFollowed loc cur s.commits
  settled : ∀ o, db.find cur = some o → loc.find cur = some o ∧
    (o.kind ≠ .commit → SettledAs db wants loc NoDiffs s.found.set cur o)

theorem tagOf_within (hwithin : loc.Within db) {x y : Oid}
    (h : Relation.ReflTransGen (TagOf loc) x y) : Relation.ReflTransGen (TagOf db) x y :=
  Relation.ReflTransGen.mono (fun x _ ht => hwithin x _ ht) x y h

theorem LedTo.reached {t : Oid} (h : LedTo db wants t) : db.Reached wants t := by
  obtain ⟨w, hw, hwt⟩ := h
  exact ⟨w, hw, reaches_of_tags hwt⟩

/-- What a tag names is settled once it was followed; a commit there is tagged. -/
theorem Followed.settled_target {cur target : Oid} {s : Wanted}
    (hcur : LedTo loc wants cur) (hfind : loc.find cur = some (.tag target))
    (h : Followed db wants loc target s) :
    Settled db wants haves loc NoDiffs s.found.set target := by
  refine Or.inr fun o ho => ?_
  obtain ⟨hlocal, hsettled⟩ := h.settled o ho
  refine ⟨?_, Or.inr hlocal⟩
  cases o with
  | commit root parents =>
    obtain ⟨w, hw, hwcur⟩ := hcur
    exact Or.inl ⟨w, hw, Relation.TransGen.tail' hwcur hfind⟩
  | tree | tag | blob => exact hsettled (by simp [GitObject.kind])

include hwithin hclear in
theorem followTag_spec {repo : Repo db} {fuel : ℕ} {cur : Oid} {s s' : Wanted}
    (hcur : LedTo loc wants cur) (h : followTag repo loc .none fuel cur s = .ok s') :
    WantedAdvances db wants haves loc s s' ∧
      (s'.found.missing = [] → Followed db wants loc cur s') := by
  induction fuel generalizing cur s s' with
  | zero => cases h
  | succ fuel ih =>
    obtain ⟨w, hw, hwcur⟩ := hcur
    have hled : LedTo db wants cur := ⟨w, hw, tagOf_within hwithin hwcur⟩
    rw [followTag] at h
    split at h
    · cases h
      have hmissing : (s.found.miss [cur]).missing ≠ [] := by simp [Found.miss]
      exact ⟨⟨.of_missing hmissing, List.Subset.refl _, fun _ ht => Or.inl ht⟩,
        fun hquiet => absurd hquiet hmissing⟩
    · rename_i target hfind
      obtain ⟨hadvances, hfollowed⟩ := ih ⟨w, hw, hwcur.tail hfind⟩ h
      obtain ⟨hfound, htarget⟩ := hadvances.found.of_insert fun hquiet =>
        (hfollowed hquiet).settled_target ⟨w, hw, hwcur⟩ hfind
      refine ⟨⟨hfound, hadvances.commits, hadvances.led⟩, fun hquiet => ⟨?_, fun o ho => ?_⟩⟩
      · intro y root parents hy hcommit
        rcases Relation.ReflTransGen.cases_head hy with rfl | ⟨z, hz, hzy⟩
        · rw [hfind] at hcommit
          cases hcommit
        · rw [TagOf, hfind, Option.some.injEq, GitObject.tag.injEq] at hz
          subst hz
          exact (hfollowed hquiet).tags y root parents hzy hcommit
      · rw [hwithin cur _ hfind, Option.some.injEq] at ho
        subst ho
        exact ⟨hfind, fun _ => htarget hquiet⟩
    · rename_i root parents hfind
      cases h
      refine ⟨⟨.refl _, List.subset_append_left _ _, fun t ht => ?_⟩, fun _ => ⟨?_, fun o ho => ?_⟩⟩
      · rcases List.mem_append.mp ht with hold | hnew
        · exact Or.inl hold
        · exact Or.inr (List.mem_singleton.mp hnew ▸ hled)
      · refine tagsFollowed_of_not_tag (fun target => by simp [hfind]) fun _ _ _ => ?_
        exact List.mem_append_right _ (List.mem_singleton.mpr rfl)
      · rw [hwithin cur _ hfind, Option.some.injEq] at ho
        subst ho
        exact ⟨hfind, fun hkind => absurd rfl hkind⟩
    · rename_i entries hfind
      rw [Checks.bind_eq_ok] at h
      obtain ⟨set, hset, h⟩ := h
      cases h
      obtain ⟨hadvances, htaken⟩ := walkTree_spec hwithin hclear hled.reached hset
      have hdb := hwithin cur _ hfind
      have hsettled : SettledAs db wants loc NoDiffs set cur (.tree entries) ∧ _ :=
        settledAs_tree htaken hdb
      obtain ⟨hadvances, -⟩ := hadvances.of_insert <| Or.inr fun o ho => by
        rw [hdb, Option.some.injEq] at ho
        exact ho ▸ hsettled
      refine ⟨⟨fun hquiet => ⟨hquiet, hadvances⟩, List.Subset.refl _, fun _ ht => Or.inl ht⟩,
        fun _ => ⟨tagsFollowed_of_not_tag (by simp [hfind]) (by simp [hfind]), fun o ho => ?_⟩⟩
      rw [hdb, Option.some.injEq] at ho
      exact ho ▸ ⟨hfind, fun _ => hsettled.1⟩
    · rename_i hfind
      cases h
      have hdb := hwithin cur _ hfind
      have hinserted : FoundAdvances db wants haves loc NoDiffs (s.found.insert cur)
        (s.found.insert cur) := .refl _
      obtain ⟨hadvances, -⟩ := hinserted.of_insert fun _ => .of_blob hdb
      refine ⟨⟨hadvances, List.Subset.refl _, fun _ ht => Or.inl ht⟩,
        fun _ => ⟨tagsFollowed_of_not_tag (by simp [hfind]) (by simp [hfind]), fun o ho => ?_⟩⟩
      rw [hdb, Option.some.injEq] at ho
      subst ho
      exact ⟨hfind, fun _ => trivial⟩

/-- What sorting one want leaves of it. -/
structure Sorted (loc : Odb) (want : Oid) (s : Wanted) : Prop where
  taken : (want ∈ s.commits ∧ ∀ o, loc.find want = some o → o.kind = .commit) ∨
    want ∈ s.found.set
  tags : TagsFollowed loc want s.commits

/-- A want to walk from. -/
theorem addWant_commit {want : Oid} {s : Wanted} (hwant : want ∈ wants) :
    WantedAdvances db wants haves loc s { s with commits := s.commits ++ [want] } := by
  refine ⟨.refl _, List.subset_append_left _ _, fun t ht => ?_⟩
  rcases List.mem_append.mp ht with hold | hnew
  · exact Or.inl hold
  · exact Or.inr ⟨want, hwant, List.mem_singleton.mp hnew ▸ .refl⟩

/-- A want that is taken as it is. -/
theorem addWant_insert {want : Oid} {s : Wanted}
    (hsettled : Settled db wants haves loc NoDiffs (s.found.insert want).set want) :
    WantedAdvances db wants haves loc s { s with found := s.found.insert want } := by
  have hinserted : FoundAdvances db wants haves loc NoDiffs (s.found.insert want)
    (s.found.insert want) := .refl _
  exact ⟨(hinserted.of_insert fun _ => hsettled).1, List.Subset.refl _, fun _ ht => Or.inl ht⟩

include hwithin hclear in
theorem addWant_spec {repo : Repo db} {contains : Oid → Bool} {want : Oid} {s s' : Wanted}
    (hwant : want ∈ wants) (hknown : db.has want → loc.has want ∨ contains want)
    (h : addWant repo loc .none contains s want = .ok s') :
    WantedAdvances db wants haves loc s s' ∧ (s'.found.missing = [] → Sorted loc want s') := by
  have hreached : db.Reached wants want := ⟨want, hwant, .refl⟩
  have hlast : want ∈ s.commits ++ [want] := List.mem_append_right _ (List.mem_singleton.mpr rfl)
  rw [addWant] at h
  split at h
  · rename_i root parents hfind
    cases h
    refine ⟨addWant_commit hwant, fun _ => ⟨Or.inl ⟨hlast, by simp [hfind, GitObject.kind]⟩, ?_⟩⟩
    exact tagsFollowed_of_not_tag (by simp [hfind]) fun _ _ _ => hlast
  · rename_i target hfind
    obtain ⟨hadvances, hfollowed⟩ := followTag_spec hwithin hclear ⟨want, hwant, .refl⟩ h
    obtain ⟨hfound, hmem⟩ := hadvances.found.of_insert fun hquiet => Or.inr fun o ho => by
      obtain ⟨hlocal, hsettled⟩ := (hfollowed hquiet).settled o ho
      rw [hfind, Option.some.injEq] at hlocal
      subst hlocal
      exact ⟨hsettled (by simp [GitObject.kind]), Or.inr hfind⟩
    exact ⟨⟨hfound, hadvances.commits, hadvances.led⟩,
      fun hquiet => ⟨Or.inr (hmem hquiet), (hfollowed hquiet).tags⟩⟩
  · rename_i entries hfind
    rw [if_neg (by simp), Checks.bind_eq_ok] at h
    obtain ⟨set, hset, h⟩ := h
    cases h
    obtain ⟨hadvances, htaken⟩ := walkTree_spec hwithin hclear hreached hset
    obtain ⟨hadvances, hmem⟩ := hadvances.of_insert <| Or.inr fun o ho => by
      rw [hwithin want _ hfind, Option.some.injEq] at ho
      exact ho ▸ settledAs_tree htaken (hwithin want _ hfind)
    exact ⟨⟨fun hquiet => ⟨hquiet, hadvances⟩, List.Subset.refl _, fun _ ht => Or.inl ht⟩,
      fun _ => ⟨Or.inr hmem, tagsFollowed_of_not_tag (by simp [hfind]) (by simp [hfind])⟩⟩
  · rename_i hfind
    cases h
    exact ⟨addWant_insert (.of_blob (hwithin want _ hfind)), fun _ => ⟨Or.inr List.mem_insert_self,
      tagsFollowed_of_not_tag (by simp [hfind]) (by simp [hfind])⟩⟩
  · rename_i hfind
    have htags : ∀ commits, TagsFollowed loc want commits :=
      fun _ => tagsFollowed_of_not_tag (by simp [hfind]) (by simp [hfind])
    split_ifs at h with hcontains
    · cases h
      exact ⟨addWant_commit hwant, fun _ => ⟨Or.inl ⟨hlast, by simp [hfind]⟩, htags _⟩⟩
    · cases h
      refine ⟨addWant_insert <| Or.inr fun o ho => ?_, fun _ =>
        ⟨Or.inr List.mem_insert_self, htags _⟩⟩
      rcases hknown (Option.isSome_iff_exists.mpr ⟨o, ho⟩) with hlocal | hremote
      · simp [Odb.has, hfind] at hlocal
      · exact absurd hremote hcontains

include hwithin hclear in
theorem addWants_spec {repo : Repo db} {contains : Oid → Bool} {s : Wanted}
    (hknown : ∀ x, db.has x → loc.has x ∨ contains x)
    (h : wants.foldlM (addWant repo loc .none contains) {} = .ok s) :
    WantedAdvances db wants haves loc {} s ∧
      (s.found.missing = [] → ∀ w ∈ wants, Sorted loc w s) := by
  obtain ⟨hadvances, hsorted⟩ := Checks.foldlM_each (R := WantedAdvances db wants haves loc)
    (P := fun w s => s.found.missing = [] → Sorted loc w s) .refl
    (fun _ _ _ => WantedAdvances.trans)
    (by
      intro w s s' hs hadvances hquiet
      obtain ⟨hquiet', hsub, -⟩ := hadvances.found hquiet
      obtain ⟨htaken, htags⟩ := hs hquiet'
      exact ⟨htaken.imp (And.imp_left fun hmem => hadvances.commits hmem) fun hmem => hsub hmem,
        fun y root parents hy hfind => hadvances.commits (htags y root parents hy hfind)⟩)
    (fun w hw s s' hstep => addWant_spec hwithin hclear hw (hknown w) hstep) h
  exact ⟨hadvances, fun hquiet w hw => hsorted w hw hquiet⟩

end Wants

end UploadPack

end Walgit
