import Walgit.PackGroups

/-!
# Links between indexed objects

Maintenance checks that everything the objects of a set of packs name is in these packs too, and
is what it is named as. The check goes over the indexes and remembers the kinds of some objects;
what it remembers is forgotten when it gets too much.
-/
namespace Walgit.ObjectLinks

inductive Kind where
  | commit
  | tree
  | blob
  | tag
  deriving DecidableEq, Repr

def Kind.text : Kind → String
  | commit => "Commit"
  | tree => "Tree"
  | blob => "Blob"
  | tag => "Tag"

/-- What the bytes of an object hold; what does not parse is `none`. -/
inductive Content where
  | commit (parsed : Option (Oid × List Oid))
  | tree (entries : List (Option TreeEntry))
  | tag (parsed : Option (Oid × Kind))
  | blob
  deriving DecidableEq, Repr

structure RawObject where
  size : ℕ
  content : Content
  deriving DecidableEq, Repr

def RawObject.kind (o : RawObject) : Kind :=
  match o.content with
  | .commit _ => .commit
  | .tree _ => .tree
  | .tag _ => .tag
  | .blob => .blob

/-- The object database, the indexes of the packs in it, and what the library says of an object
that is not there. -/
structure ObjectDb where
  find : Oid → Option RawObject
  index : Oid → Option (List Oid)
  missing : Oid → String

inductive VerifyError where
  /-- An error of the git library. -/
  | gix
  | invalidInput (message : String)
  deriving DecidableEq, Repr

variable (db : ObjectDb)

section Visit

variable {σ : Type} (visit : σ → Oid → Kind → Except VerifyError σ)

def visitEntry (s : σ) (entry : Option TreeEntry) : Except VerifyError σ :=
  match entry with
  | none => .error .gix
  | some e =>
    if e.mode ≠ .commit then visit s e.oid (if e.mode = .tree then .tree else .blob) else .ok s

def visitContent (s : σ) : Content → Except VerifyError σ
  | .commit none => .error .gix
  | .commit (some (root, parents)) => do
    let s ← visit s root .tree
    parents.foldlM (fun s parent => visit s parent .commit) s
  | .tree entries => entries.foldlM (visitEntry visit) s
  | .tag none => .error .gix
  | .tag (some (target, kind)) => visit s target kind
  | .blob => .ok s

/-- Visits what an object names; gitlinks are left out, and blobs are not read. -/
def visitReferences (id : Oid) (maxObjectBytes : ℕ) (s : σ) : Except VerifyError σ :=
  match db.find id with
  | none => .error .gix
  | some object =>
    if object.kind = .blob then .ok s
    else if maxObjectBytes < object.size then
      .error (.invalidInput ("metadata object " ++ id ++ " exceeds the " ++
        toString maxObjectBytes ++ "-byte validation budget"))
    else visitContent visit s object.content

end Visit

/-- The kinds that are remembered. -/
abbrev Kinds := List (Oid × Kind)

def checkKind (source target : Oid) (expected actual : Kind) (kinds : Kinds) :
    Except VerifyError Kinds :=
  if actual ≠ expected then
    .error (.invalidInput ("indexed object " ++ source ++ " references " ++ target ++ " as " ++
      expected.text ++ ", but found " ++ actual.text))
  else .ok kinds

/-- One link of an indexed object; `full` tells when the remembered kinds are dropped. -/
def checkLink (full : Kinds → Bool) (source : Oid) (kinds : Kinds) (target : Oid)
    (expected : Kind) : Except VerifyError Kinds :=
  match kinds.lookup target with
  | some actual => checkKind source target expected actual kinds
  | none =>
    match db.find target with
    | none => .error (.invalidInput ("indexed object " ++ source ++
        " references unavailable object " ++ target ++ ": " ++ db.missing target))
    | some object =>
      let kinds := if full kinds then [] else kinds
      checkKind source target expected object.kind ((target, object.kind) :: kinds)

def checkPack (full : Kinds → Bool) (maxObjectBytes : ℕ) (kinds : Kinds) (pack : PackRef) :
    Except VerifyError Kinds :=
  match (fromHex pack.checksum).bind db.index with
  | none => .error .gix
  | some ids => ids.foldlM (fun kinds id =>
      visitReferences db (checkLink db full id) id maxObjectBytes kinds) kinds

def checkRef (r : Ref) : Except VerifyError Unit :=
  match (fromHex r.oid).bind db.find with
  | none => .error .gix
  | some _ => .ok ()

def verifyLinksWith (full : Kinds → Bool) (packs : List PackRef) (refs : RefSnapshot)
    (maxObjectBytes : ℕ) : Except VerifyError Unit := do
  let _ ← packs.foldlM (checkPack db full maxObjectBytes) []
  refs.refs.forM (checkRef db)

/-- The check as it is made: 4096 kinds are remembered. -/
def verifyIndexedLinks (packs : List PackRef) (refs : RefSnapshot) (maxObjectBytes : ℕ) :
    Except VerifyError Unit :=
  verifyLinksWith db (fun kinds => 4096 ≤ kinds.length) packs refs maxObjectBytes

section Links

/-- What a tree entry names, gitlinks aside. -/
def entryLink (e : TreeEntry) : Option (Oid × Kind) :=
  if e.mode ≠ .commit then some (e.oid, if e.mode = .tree then .tree else .blob) else none

/-- What an object names and as what; nothing is known of what does not parse. -/
def Content.links : Content → Option (List (Oid × Kind))
  | commit parsed =>
    parsed.map fun p => (p.1, .tree) :: p.2.map fun parent => (parent, Kind.commit)
  | tree entries =>
    if entries.all Option.isSome then
      some (entries.filterMap fun entry => entry.bind entryLink)
    else none
  | tag parsed => parsed.map fun p => [p]
  | blob => some []

/-- The object has the kind. -/
def HasKind (id : Oid) (kind : Kind) : Prop := ∃ o, db.find id = some o ∧ o.kind = kind

/-- The object is there, small enough to be read, and everything it names has the kind it is named
as. -/
def Linked (maxObjectBytes : ℕ) (id : Oid) : Prop :=
  ∃ o links, db.find id = some o ∧ (o.kind = .blob ∨ o.size ≤ maxObjectBytes) ∧
    o.content.links = some links ∧ ∀ link ∈ links, HasKind db link.1 link.2

variable {db}

section Step

variable {σ : Type} {visit : σ → Oid → Kind → Except VerifyError σ} {I : σ → Prop}
  (hkeep : ∀ s target kind s', I s → visit s target kind = .ok s' → I s')
  (hok : ∀ s target kind, I s → ((∃ s', visit s target kind = .ok s') ↔ HasKind db target kind))

include hkeep in
theorem visitEntry_keeps {s s' : σ} {entry : Option TreeEntry} (hs : I s)
    (h : visitEntry visit s entry = .ok s') : I s' := by
  cases entry with
  | none => cases h
  | some e =>
    by_cases hmode : e.mode ≠ .commit
    · rw [visitEntry, if_pos hmode] at h
      exact hkeep _ _ _ _ hs h
    · rw [visitEntry, if_neg hmode] at h
      cases h
      exact hs

include hkeep in
theorem visitContent_keeps {s s' : σ} {content : Content} (hs : I s)
    (h : visitContent visit s content = .ok s') : I s' := by
  cases content with
  | commit parsed =>
    cases parsed with
    | none => cases h
    | some p =>
      rw [visitContent, Checks.bind_eq_ok] at h
      obtain ⟨t, ht, hparents⟩ := h
      exact Checks.foldlM_keeps (fun s a s' => hkeep s a .commit s') (hkeep _ _ _ _ hs ht) hparents
  | tree entries => exact Checks.foldlM_keeps (fun _ _ _ => visitEntry_keeps hkeep) hs h
  | tag parsed =>
    cases parsed with
    | none => cases h
    | some p => exact hkeep _ _ _ _ hs h
  | blob =>
    cases h
    exact hs

include hok in
theorem visitEntry_ok {s : σ} {entry : Option TreeEntry} (hs : I s) :
    (∃ s', visitEntry visit s entry = .ok s') ↔
      ∃ e, entry = some e ∧ ∀ link ∈ entryLink e, HasKind db link.1 link.2 := by
  cases entry with
  | none => simp [visitEntry]
  | some e =>
    simp only [visitEntry, entryLink, Option.some.injEq, exists_eq_left']
    split_ifs <;> simp [hok _ _ _ hs]

include hkeep hok in
theorem visitContent_ok {s : σ} {content : Content} (hs : I s) :
    (∃ s', visitContent visit s content = .ok s') ↔
      ∃ links, content.links = some links ∧ ∀ link ∈ links, HasKind db link.1 link.2 := by
  cases content with
  | commit parsed =>
    cases parsed with
    | none => simp [visitContent, Content.links]
    | some p =>
      obtain ⟨root, parents⟩ := p
      have hparents : ∀ t, I t → ((∃ s', parents.foldlM (fun s parent => visit s parent .commit) t =
          .ok s') ↔ ∀ parent ∈ parents, HasKind db parent .commit) := fun t ht =>
        Checks.foldlM_ok (fun s a s' => hkeep s a .commit s') (fun s a => hok s a .commit) ht
      simp only [visitContent, Checks.bind_eq_ok, Content.links, Option.map_some,
        Option.some.injEq, exists_eq_left', List.forall_mem_cons, List.forall_mem_map,
        ← hok s root .tree hs]
      constructor
      · rintro ⟨s', t, ht, hrest⟩
        exact ⟨⟨t, ht⟩, (hparents t (hkeep _ _ _ _ hs ht)).mp ⟨s', hrest⟩⟩
      · rintro ⟨⟨t, ht⟩, hall⟩
        obtain ⟨s', hs'⟩ := (hparents t (hkeep _ _ _ _ hs ht)).mpr hall
        exact ⟨s', t, ht, hs'⟩
  | tree entries =>
    refine (Checks.foldlM_ok (f := visitEntry visit) (fun _ _ _ => visitEntry_keeps hkeep)
      (fun _ _ => visitEntry_ok hok) hs).trans ?_
    rw [Content.links]
    constructor
    · intro hall
      have hsome : entries.all Option.isSome = true := by
        refine List.all_eq_true.mpr fun entry hentry => ?_
        obtain ⟨e, rfl, -⟩ := hall entry hentry
        rfl
      refine ⟨_, if_pos hsome, fun link hlink => ?_⟩
      obtain ⟨entry, hentry, hbind⟩ := List.mem_filterMap.mp hlink
      obtain ⟨e, rfl, he⟩ := hall entry hentry
      exact he link hbind
    · rintro ⟨links, hlinks, hall⟩ entry hentry
      split_ifs at hlinks with hsome
      obtain rfl := Option.some.inj hlinks
      obtain ⟨e, rfl⟩ := Option.isSome_iff_exists.mp (List.all_eq_true.mp hsome entry hentry)
      exact ⟨e, rfl, fun link hlink => hall link (List.mem_filterMap.mpr ⟨_, hentry, hlink⟩)⟩
  | tag parsed =>
    cases parsed with
    | none => simp [visitContent, Content.links]
    | some p =>
      obtain ⟨target, kind⟩ := p
      rw [visitContent, hok _ _ _ hs, Content.links]
      simp
  | blob => simp [visitContent, Content.links]

include hkeep in
theorem visitReferences_keeps {id : Oid} {maxObjectBytes : ℕ} {s s' : σ} (hs : I s)
    (h : visitReferences db visit id maxObjectBytes s = .ok s') : I s' := by
  rw [visitReferences] at h
  cases hfind : db.find id with
  | none =>
    rw [hfind] at h
    cases h
  | some o =>
    rw [hfind] at h
    simp only at h
    split_ifs at h
    · cases h
      exact hs
    · exact visitContent_keeps hkeep hs h

include hkeep hok in
theorem visitReferences_ok {id : Oid} {maxObjectBytes : ℕ} {s : σ} (hs : I s) :
    (∃ s', visitReferences db visit id maxObjectBytes s = .ok s') ↔
      Linked db maxObjectBytes id := by
  rw [visitReferences, Linked]
  cases hfind : db.find id with
  | none => simp
  | some o =>
    simp only [Option.some.injEq, exists_and_left, exists_eq_left']
    split_ifs with hblob hsize
    · have hlinks : o.content.links = some [] := by
        obtain ⟨size, content⟩ := o
        cases content <;> first | rfl | cases hblob
      simp [hblob, hlinks]
    · refine iff_of_false (by simp) ?_
      rintro ⟨hsmall, -⟩
      exact hsmall.elim hblob fun hle => absurd hle (by omega)
    · rw [visitContent_ok hkeep hok hs, and_iff_right]
      exact .inr (by omega)

end Step

variable {full : Kinds → Bool}

/-- What is remembered is so. -/
def Sound (db : ObjectDb) (kinds : Kinds) : Prop :=
  ∀ target kind, kinds.lookup target = some kind → HasKind db target kind

theorem HasKind.unique {target : Oid} {kind kind' : Kind} (h : HasKind db target kind)
    (h' : HasKind db target kind') : kind = kind' := by
  obtain ⟨o, ho, rfl⟩ := h
  obtain ⟨o', ho', rfl⟩ := h'
  rw [Option.some.inj (ho.symm.trans ho')]

theorem checkKind_ok {source target : Oid} {expected actual : Kind} {kinds kinds' : Kinds} :
    checkKind source target expected actual kinds = .ok kinds' ↔
      actual = expected ∧ kinds = kinds' := by
  unfold checkKind
  split_ifs with h <;> simp_all

theorem Sound.cons {kinds : Kinds} (h : Sound db kinds) {target : Oid} {o : RawObject}
    (ho : db.find target = some o) : Sound db ((target, o.kind) :: kinds) := by
  intro t kind hkind
  by_cases heq : t = target
  · subst heq
    simp only [List.lookup_cons, beq_self_eq_true] at hkind
    exact ⟨o, ho, Option.some.inj hkind⟩
  · rw [List.lookup_cons, beq_false_of_ne heq] at hkind
    exact h t kind hkind

theorem checkLink_keeps {source target : Oid} {expected : Kind} {kinds kinds' : Kinds}
    (hkinds : Sound db kinds)
    (h : checkLink db full source kinds target expected = .ok kinds') : Sound db kinds' := by
  unfold checkLink at h
  split at h
  · exact (checkKind_ok.mp h).2 ▸ hkinds
  · split at h
    · cases h
    · rename_i object hobject
      obtain ⟨-, rfl⟩ := checkKind_ok.mp h
      refine Sound.cons ?_ hobject
      split_ifs
      · intro t kind hkind
        cases hkind
      · exact hkinds

theorem checkLink_ok {source target : Oid} {expected : Kind} {kinds : Kinds}
    (hkinds : Sound db kinds) :
    (∃ kinds', checkLink db full source kinds target expected = .ok kinds') ↔
      HasKind db target expected := by
  unfold checkLink
  split
  · rename_i actual hactual
    have hknown := hkinds target actual hactual
    simp only [checkKind_ok, exists_and_left, exists_eq', and_true]
    exact ⟨fun heq => heq ▸ hknown, hknown.unique⟩
  · split
    · rename_i hmissing
      refine iff_of_false (by simp) ?_
      rintro ⟨o, ho, -⟩
      rw [hmissing] at ho
      cases ho
    · rename_i object hobject
      simp only [checkKind_ok, exists_and_left, exists_eq', and_true]
      exact ⟨fun heq => ⟨object, hobject, heq⟩, fun h => h.unique ⟨object, hobject, rfl⟩ |>.symm⟩

/-- The objects of a pack. -/
def PackHas (db : ObjectDb) (pack : PackRef) (ids : List Oid) : Prop :=
  (fromHex pack.checksum).bind db.index = some ids

theorem checkPack_keeps {maxObjectBytes : ℕ} {kinds kinds' : Kinds} {pack : PackRef}
    (hkinds : Sound db kinds) (h : checkPack db full maxObjectBytes kinds pack = .ok kinds') :
    Sound db kinds' := by
  unfold checkPack at h
  split at h
  · cases h
  · exact Checks.foldlM_keeps
      (fun _ _ _ hs => visitReferences_keeps (fun _ _ _ _ => checkLink_keeps) hs) hkinds h

theorem checkPack_ok {maxObjectBytes : ℕ} {kinds : Kinds} {pack : PackRef}
    (hkinds : Sound db kinds) :
    (∃ kinds', checkPack db full maxObjectBytes kinds pack = .ok kinds') ↔
      ∃ ids, PackHas db pack ids ∧ ∀ id ∈ ids, Linked db maxObjectBytes id := by
  unfold checkPack PackHas
  cases (fromHex pack.checksum).bind db.index with
  | none => simp
  | some ids =>
    simp only [Option.some.injEq, exists_eq_left']
    exact Checks.foldlM_ok
      (f := fun kinds id => visitReferences db (checkLink db full id) id maxObjectBytes kinds)
      (fun _ _ _ hs => visitReferences_keeps (fun _ _ _ _ => checkLink_keeps) hs)
      (fun _ _ hs => visitReferences_ok (fun _ _ _ _ => checkLink_keeps)
        (fun _ _ _ => checkLink_ok) hs) hkinds

/-- The check succeeds exactly if every indexed object is linked and every ref is there, whatever
is remembered. -/
theorem verifyLinksWith_ok {packs : List PackRef} {refs : RefSnapshot} {maxObjectBytes : ℕ} :
    verifyLinksWith db full packs refs maxObjectBytes = .ok () ↔
      (∀ pack ∈ packs, ∃ ids, PackHas db pack ids ∧ ∀ id ∈ ids, Linked db maxObjectBytes id) ∧
      ∀ r ∈ refs.refs, ∃ o, (fromHex r.oid).bind db.find = some o := by
  have hrefs : refs.refs.forM (checkRef db) = .ok () ↔
      ∀ r ∈ refs.refs, ∃ o, (fromHex r.oid).bind db.find = some o := by
    rw [Checks.forM_ok]
    refine forall₂_congr fun r _ => ?_
    unfold checkRef
    cases (fromHex r.oid).bind db.find <;> simp
  have hnone : Sound db [] := fun _ _ h => by cases h
  have hpacks := Checks.foldlM_ok (f := checkPack db full maxObjectBytes) (l := packs)
    (fun _ _ _ => checkPack_keeps) (fun _ _ => checkPack_ok) hnone
  rw [verifyLinksWith, Checks.bind_eq_ok, ← hpacks, ← hrefs, exists_and_right]

/-- An object that is in one of the packs. -/
def Indexed (db : ObjectDb) (packs : List PackRef) (id : Oid) : Prop :=
  ∃ pack ∈ packs, ∃ ids, PackHas db pack ids ∧ id ∈ ids

/-- If nothing but the packs is in the object database and the check succeeds, then all that an
indexed object names is indexed and of the kind it is named as, and all refs are indexed, whenever
the remembered kinds were dropped. -/
theorem verifyLinks_closed {packs : List PackRef} {refs : RefSnapshot} {maxObjectBytes : ℕ}
    (hdb : ∀ id o, db.find id = some o → Indexed db packs id)
    (h : verifyLinksWith db full packs refs maxObjectBytes = .ok ()) :
    (∀ id, Indexed db packs id → ∃ o links, db.find id = some o ∧ o.content.links = some links ∧
      ∀ link ∈ links, Indexed db packs link.1 ∧ HasKind db link.1 link.2) ∧
    ∀ r ∈ refs.refs, ∃ id, fromHex r.oid = some id ∧ Indexed db packs id := by
  obtain ⟨hpacks, hrefs⟩ := verifyLinksWith_ok.mp h
  refine ⟨fun id hid => ?_, fun r hr => ?_⟩
  · obtain ⟨pack, hpack, ids, hhas, hmem⟩ := hid
    obtain ⟨ids', hhas', hlinked⟩ := hpacks pack hpack
    obtain rfl := Option.some.inj (hhas.symm.trans hhas')
    obtain ⟨o, links, ho, -, hlinks, hall⟩ := hlinked id hmem
    refine ⟨o, links, ho, hlinks, fun link hlink => ?_⟩
    obtain ⟨target, htarget, hkind⟩ := hall link hlink
    exact ⟨hdb _ target htarget, target, htarget, hkind⟩
  · obtain ⟨o, ho⟩ := hrefs r hr
    obtain ⟨id, hid, hfind⟩ := Option.bind_eq_some_iff.mp ho
    exact ⟨id, hid, hdb id o hfind⟩

end Links

section Example

open Text

/-- A commit with one file and a submodule. -/
def oneFile : ObjectDb where
  find id :=
    [(repeated 'c', ⟨200, .commit (some (repeated 'e', []))⟩),
      (repeated 'e', ⟨80, .tree [some ⟨.blob, "file", repeated 'b'⟩,
        some ⟨.commit, "module", repeated 'd'⟩]⟩),
      (repeated 'b', (⟨5000000, .blob⟩ : RawObject))].lookup id
  index _ := some [repeated 'b', repeated 'c', repeated 'e']
  missing _ := "not found"

theorem verifyLinks_closed_oneFile :
    let packs : List PackRef := [{ checksum := repeated 'a' }]
    verifyIndexedLinks oneFile packs
        ⟨"sha1", "refs/heads/main", [⟨"refs/heads/main", repeated 'c', ""⟩]⟩ 1000 = .ok () ∧
      Indexed oneFile packs (repeated 'b') ∧ HasKind oneFile (repeated 'b') .blob := by
  intro packs
  have hchecksum : fromHex (repeated 'a') = some (repeated 'a') := by decide
  have hhas : PackHas oneFile { checksum := repeated 'a' }
      [repeated 'b', repeated 'c', repeated 'e'] := by
    rw [PackHas, hchecksum]
    rfl
  have hblob : oneFile.find (repeated 'b') = some ⟨5000000, .blob⟩ := by decide
  have htree : oneFile.find (repeated 'e') = some ⟨80, .tree [some ⟨.blob, "file", repeated 'b'⟩,
    some ⟨.commit, "module", repeated 'd'⟩]⟩ := by decide
  have hcommit : oneFile.find (repeated 'c') = some ⟨200, .commit (some (repeated 'e', []))⟩ := by
    decide
  have hverify : verifyIndexedLinks oneFile packs
      ⟨"sha1", "refs/heads/main", [⟨"refs/heads/main", repeated 'c', ""⟩]⟩ 1000 = .ok () := by
    refine verifyLinksWith_ok.mpr ⟨?_, ?_⟩
    · refine List.forall_mem_singleton.mpr ⟨_, hhas, ?_⟩
      simp only [List.mem_cons, List.not_mem_nil, or_false, forall_eq_or_imp, forall_eq]
      exact ⟨⟨_, [], hblob, .inl rfl, rfl, by simp⟩,
        ⟨_, [(repeated 'e', .tree)], hcommit, .inr (by decide), rfl, by simpa using ⟨_, htree, rfl⟩⟩,
        ⟨_, [(repeated 'b', .blob)], htree, .inr (by decide), rfl, by simpa using ⟨_, hblob, rfl⟩⟩⟩
    · have hoid : fromHex (repeated 'c') = some (repeated 'c') := by decide
      exact List.forall_mem_singleton.mpr ⟨_, by rw [hoid]; exact hcommit⟩
  have hindexed : ∀ id o, oneFile.find id = some o → Indexed oneFile packs id := by
    intro id o ho
    refine ⟨_, List.mem_singleton_self _, _, hhas, ?_⟩
    obtain ⟨before, after, heq, -⟩ := List.lookup_eq_some_iff.mp ho
    have hmem : (id, o) ∈ before ++ (id, o) :: after := by simp
    rw [← heq] at hmem
    simp only [List.mem_cons, List.not_mem_nil, or_false, Prod.mk.injEq] at hmem ⊢
    rcases hmem with ⟨rfl, -⟩ | ⟨rfl, -⟩ | ⟨rfl, -⟩ <;> simp
  obtain ⟨hlinks, -⟩ := verifyLinks_closed hindexed hverify
  obtain ⟨o, links, ho, hnamed, hall⟩ := hlinks _ (hindexed _ _ htree)
  rw [htree] at ho
  obtain rfl := Option.some.inj ho
  have hfile := hall (repeated 'b', .blob) (Option.some.inj hnamed ▸ List.mem_singleton_self _)
  exact ⟨hverify, hfile⟩

end Example

end Walgit.ObjectLinks
