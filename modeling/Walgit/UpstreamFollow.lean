import Walgit.CompareAndSwap
import Walgit.ConfigChecks

/-!
# Following an upstream

`upstream.follow`: refs of a repository follow the same refs of another git host. An attempt reads
what the copy has and fetches into the scratch repository of its site; the op publishes what is a
fast-forward, through the log. Upstream may rewind, a fetch may end half way, and other publishers
go on meanwhile.
-/
namespace Walgit.Following

open Text

/-- The refs of a repository as `git update-ref` keeps them: none holds the null id. -/
structure GitRefs where
  refs : SortedMap String String
  real : ∀ name oid, refs.find? name = some oid → isNullOid oid = false

namespace GitRefs

def empty : GitRefs := ⟨.empty, by simp⟩

/-- The null id deletes the ref. -/
def update (g : GitRefs) (name oid : String) : GitRefs where
  refs := if isNullOid oid then g.refs.erase name else g.refs.insert name oid
  real := by
    intro other found h
    split_ifs at h with hnull
    · rw [SortedMap.find?_erase] at h
      split_ifs at h
      exact g.real other found h
    · rw [SortedMap.find?_insert] at h
      split_ifs at h
      · cases h
        simpa using hnull
      · exact g.real other found h

theorem find?_update {g : GitRefs} {name oid other found : String}
    (h : (g.update name oid).refs.find? other = some found) :
    (other = name ∧ found = oid ∧ isNullOid oid = false) ∨ g.refs.find? other = some found := by
  unfold update at h
  split_ifs at h with hnull
  · rw [SortedMap.find?_erase] at h
    split_ifs at h
    exact Or.inr h
  · rw [SortedMap.find?_insert] at h
    split_ifs at h with hname
    · cases h
      exact Or.inl ⟨hname, rfl, by simpa using hnull⟩
    · exact Or.inr h

end GitRefs

/-- The configuration in effect for a repository, which `Config::validate` has passed. -/
structure Settings [CharTables] where
  config : HostConfig.Config
  valid : HostConfig.validate config = .ok ()

/-- `upstream.follow`. -/
def Settings.follow [CharTables] (c : Settings) : List String :=
  HostConfig.getTexts c.config ["upstream", "follow"]

/-- The scratch's copy of upstream's ref. -/
def followRef (r : String) : String := "refs/follow/" ++ (Auth.stripPrefix "refs/" r).getD r

/-- The copy's values of the refs. -/
def current (refs : RefState) (follow : List String) : SortedMap String String :=
  .ofList (refs.refs.entries.filter fun r => follow.contains r.1)

/-- `git update-ref --stdin`: the tips to negotiate from are the values that the copy has. -/
def seedScratch (scratch : GitRefs) (held : SortedMap String String) (follow : List String) :
    GitRefs :=
  follow.foldl (fun g r => g.update (followRef r) ((held.find? r).getD "")) scratch

/-- `git fetch`, as far as it has come: it has these refs from upstream. -/
def fetchScratch (scratch upstream : GitRefs) (got : List String) : GitRefs :=
  got.foldl (fun g r => g.update (followRef r) ((upstream.refs.find? r).getD "")) scratch

/-- Upstream's tips under the names they have there. -/
def readScratch (scratch : GitRefs) : SortedMap String String :=
  .ofList (scratch.refs.entries.filterMap fun p =>
    (Auth.stripPrefix "refs/follow/" p.1).map fun r => ("refs/" ++ r, p.2))

/-- What the tools answer in one run of the op. -/
structure Tools where
  ingestPack : Except String (Option IngestedPack)
  checkConnectivity : List String → Except String Unit
  isAncestor : String → String → Except String Bool

/-- What moves. A ref that upstream does not have is left alone. -/
def updatesOf (follow : List String) (held tips : SortedMap String String) : List RefUpdate :=
  follow.filterMap fun r => (tips.find? r).bind fun new =>
    let old := (held.find? r).getD ""
    if old = new then none else some ⟨r, old, new, ""⟩

def short (oid : String) : String :=
  if oid = "" then "(none)" else String.ofList (oid.toList.take 12)

/-- Why an update is refused: upstream was rewound. A ref that is new here is not asked about. -/
def refusal (t : Tools) (u : RefUpdate) : Option String :=
  if u.oldOid = "" then none
  else match t.isAncestor u.oldOid u.newOid with
    | .ok true => none
    | .ok false => some (u.name ++ ": upstream rewound " ++ short u.oldOid ++ "→" ++ short u.newOid ++
        " (not a fast-forward)")
    | .error e => some (u.name ++ ": " ++ e)

def requestOf (upstream : String) (pack : Option IngestedPack) (updates : List RefUpdate) :
    PublishRequest where
  pack := pack
  txn := ⟨updates, [], false⟩
  metadata := .ofList
    [("principal", "upstream"), ("upstream", upstream), ("agent", "walgit follow")]

/-- The request with what is a fast-forward, and the refs it leaves out. -/
def publishable (t : Tools) (upstream : String) (pack : Option IngestedPack)
    (updates : List RefUpdate) : Except String (Option (PublishRequest × List String)) :=
  let refused := updates.filterMap (refusal t)
  let publishable := updates.filter fun u => (refusal t u).isNone
  if publishable.isEmpty then
    .error ("follow: nothing publishable — " ++ String.intercalate "; " refused)
  else .ok (some (requestOf upstream pack publishable, refused))

section Op

variable [CharTables]

/-- The `follow` op behind its fetch; it may find nothing to do. -/
def op (c : Settings) (t : Tools) (held tips : SortedMap String String) :
    Except String (Option (PublishRequest × List String)) :=
  match HostConfig.getOptional c.config ["upstream", "git"] with
  | none => .error "follow: no upstream.git for this repository"
  | some upstream =>
    let updates := updatesOf c.follow held tips
    if c.follow.isEmpty then .error "follow: upstream.follow is empty for this repository"
    else if updates.isEmpty then .ok none
    else do
      let pack ← t.ingestPack.mapError ("unpack failed: " ++ ·)
      if HostConfig.getSwitch c.config ["wal", "check_connectivity"] then
        (t.checkConnectivity ((updates.map RefUpdate.newOid).filter fun oid =>
          (validateOid oid).isOk)).mapError ("connectivity: " ++ ·)
      else .ok ()
      publishable t upstream pack updates

/-- An attempt to follow: a round of the loop or a run of the op, with what it found in the copy. -/
structure Attempt where
  site : ℕ
  settings : Settings
  held : SortedMap String String

/-- A request that an op handed to `publish_push`. -/
structure Made where
  settings : Settings
  request : PublishRequest

/-- The cluster, the upstream and the sites' scratch repositories. -/
structure Ingress where
  cluster : Cluster
  upstream : GitRefs
  /-- All that upstream has served, the newest first. -/
  served : List GitRefs
  scratch : ℕ → GitRefs
  attempts : ℕ → Option Attempt
  made : List Made

inductive Move where
  | deed (d : Deed)
  | serve (refs : GitRefs)
  | begin (k h : ℕ) (c : Settings)
  | seed (k : ℕ)
  | fetched (k : ℕ) (got : List String)
  | publish (k : ℕ) (t : Tools)

namespace Ingress

/-- A repository just created, and an upstream. -/
def created (m : Manifest) (upstream : GitRefs) : Ingress :=
  ⟨.created m, upstream, [upstream], fun _ => .empty, fun _ => none, []⟩

variable (cfg : Config)

/-- One step; `none` when it is not enabled. -/
def step (s : Ingress) : Move → Option Ingress
  | .deed d => (Cluster.step cfg s.cluster d).map fun c => { s with cluster := c }
  | .serve refs => some { s with upstream := refs, served := refs :: s.served }
  | .begin k h c => do
    let copy ← s.cluster.copy h
    if (s.attempts k).isSome then none
    else
      let attempt : Attempt := ⟨copy.handle.site, c, current copy.disk.refs c.follow⟩
      some { s with attempts := Function.update s.attempts k (some attempt) }
  | .seed k => do
    let a ← s.attempts k
    let scratch := seedScratch (s.scratch a.site) a.held a.settings.follow
    some { s with scratch := Function.update s.scratch a.site scratch }
  | .fetched k got => do
    let a ← s.attempts k
    let got := got.filter fun r => a.settings.follow.contains r && (s.upstream.refs.find? r).isSome
    let scratch := fetchScratch (s.scratch a.site) s.upstream got
    some { s with scratch := Function.update s.scratch a.site scratch }
  | .publish k t => do
    let a ← s.attempts k
    match op a.settings t a.held (readScratch (s.scratch a.site)) with
    | .ok (some p) => some { s with made := ⟨a.settings, p.1⟩ :: s.made }
    | _ => some s

end Ingress

end Op

section Names

theorem Settings.follow_ref [CharTables] (c : Settings) {r : String} (hr : r ∈ c.follow) :
    startsWith "refs/" r = true := by
  have hvalid := c.valid
  unfold HostConfig.validate at hvalid
  simp only [Checks.check_ok, Checks.guard_ok] at hvalid
  obtain ⟨-, -, -, -, -, -, -, -, hupstream, -⟩ := hvalid
  unfold HostConfig.validateUpstream at hupstream
  simp only [Checks.check_ok] at hupstream
  obtain ⟨-, -, hfollow⟩ := hupstream
  have hsome : (HostConfig.getTexts c.config ["upstream", "follow"]).isEmpty = false :=
    List.isEmpty_eq_false_iff.mpr (List.ne_nil_of_mem hr)
  rw [hsome, if_neg (by simp), HostConfig.validateFollow] at hfollow
  simp only [Checks.guard_ok] at hfollow
  have hname := (Checks.forM_ok.mp hfollow.2) r hr
  split_ifs at hname with hok
  simp only [Bool.and_eq_true] at hok
  exact hok.1.1

theorem stripPrefix_eq_some {p s short : String} (h : Auth.stripPrefix p s = some short) :
    s = p ++ short := by
  unfold Auth.stripPrefix at h
  split_ifs at h with hstarts
  obtain ⟨rest, hrest⟩ := List.isPrefixOf_iff_prefix.mp hstarts
  cases h
  rw [← String.toList_inj, String.toList_append, String.toList_ofList, ← hrest, List.drop_left]

/-- What the scratch has for a ref goes under the name that upstream has it under. -/
theorem followRef_eq {r : String} (hr : startsWith "refs/" r = true) :
    ∃ rest, r = "refs/" ++ rest ∧ followRef r = "refs/follow/" ++ rest := by
  obtain ⟨rest, hrest⟩ : ∃ rest, Auth.stripPrefix "refs/" r = some rest := by
    rw [Auth.stripPrefix, if_pos hr]
    exact ⟨_, rfl⟩
  refine ⟨rest, stripPrefix_eq_some hrest, ?_⟩
  rw [followRef, hrest, Option.getD_some]

theorem mem_of_find?_ofList {l : List (String × String)} {k v : String}
    (h : (SortedMap.ofList l).find? k = some v) : (k, v) ∈ l := by
  have hfold : ∀ m : SortedMap String String,
      (l.foldl (fun m b => m.insert b.1 b.2) m).find? k = some v → (k, v) ∈ l ∨ m.find? k = some v := by
    intro m
    clear h
    induction l generalizing m with
    | nil => exact Or.inr
    | cons b l ih =>
      intro h
      rcases ih _ h with hmem | hfind
      · exact Or.inl (List.mem_cons_of_mem b hmem)
      · rw [SortedMap.find?_insert] at hfind
        split_ifs at hfind with hk
        · cases hfind
          rw [hk]
          exact Or.inl List.mem_cons_self
        · exact Or.inr hfind
  rcases hfold _ h with hmem | hfind
  · exact hmem
  · rw [SortedMap.find?_empty] at hfind
    cases hfind

theorem find?_readScratch {scratch : GitRefs} {r oid : String}
    (h : (readScratch scratch).find? r = some oid) :
    ∃ rest, r = "refs/" ++ rest ∧ scratch.refs.find? ("refs/follow/" ++ rest) = some oid := by
  obtain ⟨⟨name, value⟩, hmem, hrow⟩ := List.mem_filterMap.mp (mem_of_find?_ofList h)
  obtain ⟨rest, hrest, heq⟩ := Option.map_eq_some_iff.mp hrow
  cases heq
  refine ⟨rest, rfl, ?_⟩
  rw [← stripPrefix_eq_some hrest]
  exact SortedMap.find?_eq_some_of_mem hmem

theorem find?_foldl_update {l : List String} {name value : String → String} {g : GitRefs}
    {other oid : String}
    (h : (l.foldl (fun g r => g.update (name r) (value r)) g).refs.find? other = some oid) :
    (∃ r ∈ l, other = name r ∧ oid = value r ∧ isNullOid oid = false) ∨
      g.refs.find? other = some oid := by
  induction l generalizing g with
  | nil => exact Or.inr h
  | cons r l ih =>
    rcases ih h with ⟨r', hr', heq⟩ | hfind
    · exact Or.inl ⟨r', List.mem_cons_of_mem r hr', heq⟩
    · rcases GitRefs.find?_update hfind with ⟨hname, rfl, hnull⟩ | hfind
      · exact Or.inl ⟨r, List.mem_cons_self, hname, rfl, hnull⟩
      · exact Or.inr hfind

end Names

/-- The one commit has the other one among its ancestors, or is it. -/
def Descends (parents : String → List String) (new old : String) : Prop :=
  Relation.ReflTransGen (fun c p => p ∈ parents c) new old

/-- `git merge-base --is-ancestor` is only true of ancestors. -/
def Tools.Right (parents : String → List String) (t : Tools) : Prop :=
  ∀ old new, t.isAncestor old new = .ok true → Descends parents new old

section Updates

theorem mem_updatesOf {follow : List String} {held tips : SortedMap String String} {u : RefUpdate}
    (hu : u ∈ updatesOf follow held tips) :
    u.name ∈ follow ∧ u.symbolic = false ∧ tips.find? u.name = some u.newOid ∧
      u.oldOid = (held.find? u.name).getD "" := by
  obtain ⟨r, hr, hrow⟩ := List.mem_filterMap.mp hu
  obtain ⟨new, hnew, hrow⟩ := Option.bind_eq_some_iff.mp hrow
  simp only at hrow
  split_ifs at hrow
  cases hrow
  exact ⟨hr, rfl, hnew, rfl⟩

theorem refusal_none {parents : String → List String} {t : Tools} (ht : t.Right parents)
    {u : RefUpdate} (h : refusal t u = none) : u.oldOid = "" ∨ Descends parents u.newOid u.oldOid := by
  unfold refusal at h
  split_ifs at h with hold
  · exact Or.inl hold
  · split at h
    · rename_i htrue
      exact Or.inr (ht _ _ htrue)
    · cases h
    · cases h

theorem publishable_some {parents : String → List String} {t : Tools} (ht : t.Right parents)
    {upstream : String} {pack : Option IngestedPack} {updates : List RefUpdate}
    {p : PublishRequest × List String} (h : publishable t upstream pack updates = .ok (some p)) :
    ∀ u ∈ p.1.txn.updates,
      u ∈ updates ∧ (u.oldOid = "" ∨ Descends parents u.newOid u.oldOid) := by
  unfold publishable at h
  simp only at h
  split_ifs at h
  cases h
  intro u hu
  obtain ⟨hu, hnone⟩ := List.mem_filter.mp hu
  exact ⟨hu, refusal_none ht (Option.isNone_iff_eq_none.mp hnone)⟩

end Updates

section Safety

variable [CharTables]

/-- Upstream has served the value for the ref, or an attempt began with it in the copy. -/
def Ingress.Saw (s : Ingress) (r oid : String) : Prop :=
  (∃ g ∈ s.served, g.refs.find? r = some oid) ∨
    ∃ k a, s.attempts k = some a ∧ a.held.find? r = some oid

/-- Every update of a request moves a followed ref forward, to a value that was seen. -/
structure Made.Ok (parents : String → List String) (s : Ingress) (p : Made) : Prop where
  updates : ∀ u ∈ p.request.txn.updates, u.name ∈ p.settings.follow ∧ u.symbolic = false ∧
    isNullOid u.newOid = false ∧ s.Saw u.name u.newOid ∧
      (u.oldOid = "" ∨ Descends parents u.newOid u.oldOid)
  agree : ∀ u ∈ p.request.txn.updates, ∀ u' ∈ p.request.txn.updates,
    u'.name = u.name → u'.newOid = u.newOid

namespace Ingress

/-- What the scratch repositories and the requests keep. -/
structure Ok (cfg : Config) (parents : String → List String) (s : Ingress) : Prop where
  cluster : Cluster.Ok cfg s.cluster
  judged : JudgedOnto s.cluster.world.gens
  upstream : s.upstream ∈ s.served
  scratch : ∀ site name oid, (s.scratch site).refs.find? name = some oid →
    ∃ r, startsWith "refs/" r = true ∧ name = followRef r ∧ s.Saw r oid
  made : ∀ p ∈ s.made, p.Ok parents s

end Ingress

/-- A request of the op moves followed refs to upstream's tips, forward only. -/
theorem op_some {parents : String → List String} {c : Settings} {t : Tools} (ht : t.Right parents)
    {held tips : SortedMap String String} {p : PublishRequest × List String}
    (h : op c t held tips = .ok (some p)) :
    ∀ u ∈ p.1.txn.updates, u.name ∈ c.follow ∧ u.symbolic = false ∧
      tips.find? u.name = some u.newOid ∧ (u.oldOid = "" ∨ Descends parents u.newOid u.oldOid) := by
  cases hgit : HostConfig.getOptional c.config ["upstream", "git"] with
  | none =>
    rw [op, hgit] at h
    cases h
  | some upstream =>
    rw [op, hgit] at h
    simp only at h
    by_cases hfollow : c.follow.isEmpty = true
    · rw [if_pos hfollow] at h
      cases h
    rw [if_neg hfollow] at h
    by_cases hsame : (updatesOf c.follow held tips).isEmpty = true
    · rw [if_pos hsame] at h
      cases h
    rw [if_neg hsame] at h
    obtain ⟨pack, -, h⟩ := Checks.bind_eq_ok.mp h
    have hpublish : publishable t upstream pack (updatesOf c.follow held tips) = .ok (some p) := by
      split_ifs at h
      · exact (Checks.check_ok.mp h).2
      · exact h
    intro u hu
    obtain ⟨hu, hforward⟩ := publishable_some ht hpublish u hu
    obtain ⟨hname, hsym, htip, -⟩ := mem_updatesOf hu
    exact ⟨hname, hsym, htip, hforward⟩

namespace Ingress

variable {cfg : Config} {parents : String → List String} {s s' : Ingress}

theorem Saw.mono (hserved : ∀ g ∈ s.served, g ∈ s'.served)
    (hattempts : ∀ k a, s.attempts k = some a → s'.attempts k = some a) {r oid : String}
    (h : s.Saw r oid) : s'.Saw r oid := by
  rcases h with ⟨g, hg, hfind⟩ | ⟨k, a, ha, hfind⟩
  · exact Or.inl ⟨g, hserved g hg, hfind⟩
  · exact Or.inr ⟨k, a, hattempts k a ha, hfind⟩

/-- What a step leaves as it was. -/
structure Keeps (s s' : Ingress) : Prop where
  served : ∀ g ∈ s.served, g ∈ s'.served
  attempts : ∀ k a, s.attempts k = some a → s'.attempts k = some a

theorem Keeps.made (h : Keeps s s') {p : Made} (hp : p.Ok parents s) : p.Ok parents s' := by
  refine ⟨fun u hu => ?_, hp.agree⟩
  obtain ⟨hname, hsym, hnull, hsaw, hforward⟩ := hp.updates u hu
  exact ⟨hname, hsym, hnull, hsaw.mono h.served h.attempts, hforward⟩

theorem Keeps.scratch (h : Keeps s s')
    (hs : ∀ site name oid, (s.scratch site).refs.find? name = some oid →
      ∃ r, startsWith "refs/" r = true ∧ name = followRef r ∧ s.Saw r oid)
    (site : ℕ) {name oid : String} (hfind : (s.scratch site).refs.find? name = some oid) :
    ∃ r, startsWith "refs/" r = true ∧ name = followRef r ∧ s'.Saw r oid := by
  obtain ⟨r, hr, hname, hsaw⟩ := hs site name oid hfind
  exact ⟨r, hr, hname, hsaw.mono h.served h.attempts⟩

theorem Ok.keeps (hs : s.Ok cfg parents) (h : Keeps s s')
    (hcluster : Cluster.Ok cfg s'.cluster ∧ JudgedOnto s'.cluster.world.gens)
    (hupstream : s'.upstream ∈ s'.served)
    (hscratch : ∀ site name oid, (s'.scratch site).refs.find? name = some oid →
      (s.scratch site).refs.find? name = some oid ∨
        ∃ r, startsWith "refs/" r = true ∧ name = followRef r ∧ s'.Saw r oid)
    (hmade : ∀ p ∈ s'.made, p ∈ s.made ∨ p.Ok parents s') : s'.Ok cfg parents where
  cluster := hcluster.1
  judged := hcluster.2
  upstream := hupstream
  scratch site name oid hfind := by
    rcases hscratch site name oid hfind with hfind | hnew
    · exact h.scratch hs.scratch site hfind
    · exact hnew
  made p hp := by
    rcases hmade p hp with hp | hnew
    · exact h.made (hs.made p hp)
    · exact hnew

/-- A scratch repository takes over values that were seen. -/
theorem Ok.setScratch (hs : s.Ok cfg parents) {site : ℕ} {l : List String} {value : String → String}
    (hl : ∀ r ∈ l, startsWith "refs/" r = true ∧ (isNullOid (value r) = false → s.Saw r (value r))) :
    Ok cfg parents { s with
      scratch := Function.update s.scratch site
        (l.foldl (fun g r => g.update (followRef r) (value r)) (s.scratch site)) } := by
  refine hs.keeps ⟨fun _ => id, fun _ _ => id⟩ ⟨hs.cluster, hs.judged⟩ hs.upstream
    (fun site' name oid hfind => ?_) fun _ => Or.inl
  change ((Function.update s.scratch site _) site').refs.find? name = some oid at hfind
  rw [Function.update_apply] at hfind
  split_ifs at hfind with hsite
  · rcases find?_foldl_update hfind with ⟨r, hr, hname, rfl, hnull⟩ | hfind
    · exact Or.inr ⟨r, (hl r hr).1, hname, (hl r hr).2 hnull⟩
    · rw [hsite]
      exact Or.inl hfind
  · exact Or.inl hfind

/-- The cluster's deeds are sound. -/
def sound (s : Ingress) : Move → Bool
  | .deed d => s.cluster.sound d
  | _ => true

/-- Every scratch entry, and every request, has its value from upstream or from a copy. -/
theorem Ok.step (hs : s.Ok cfg parents) {m : Move} (hsound : s.sound m = true)
    (hgit : ∀ k t, m = .publish k t → t.Right parents) (h : Ingress.step cfg s m = some s') :
    s'.Ok cfg parents := by
  cases m with
  | deed d =>
    obtain ⟨c, hc, rfl⟩ := Option.map_eq_some_iff.mp h
    have hok := hs.cluster.step hsound hc
    exact hs.keeps ⟨fun _ => id, fun _ _ => id⟩ ⟨hok, hs.cluster.judgedOnto hok hc hs.judged⟩
      hs.upstream (fun _ _ _ => Or.inl) fun _ => Or.inl
  | serve refs =>
    cases h
    exact hs.keeps ⟨fun _ => List.mem_cons_of_mem _, fun _ _ => id⟩ ⟨hs.cluster, hs.judged⟩
      List.mem_cons_self (fun _ _ _ => Or.inl) fun _ => Or.inl
  | begin k h' c =>
    obtain ⟨copy, -, h⟩ := Option.bind_eq_some_iff.mp h
    split_ifs at h with hfresh
    cases h
    refine hs.keeps ⟨fun _ => id, fun k' a ha => ?_⟩ ⟨hs.cluster, hs.judged⟩ hs.upstream
      (fun _ _ _ => Or.inl) fun _ => Or.inl
    have hne : k' ≠ k := by
      rintro rfl
      rw [ha] at hfresh
      exact hfresh rfl
    exact (Function.update_of_ne hne _ _).trans ha
  | seed k =>
    obtain ⟨a, ha, h⟩ := Option.bind_eq_some_iff.mp h
    cases h
    refine hs.setScratch fun r hr => ⟨a.settings.follow_ref hr, fun hnull => Or.inr ⟨k, a, ha, ?_⟩⟩
    cases hheld : a.held.find? r with
    | none =>
      rw [hheld] at hnull
      cases hnull
    | some oid => rfl
  | fetched k got =>
    obtain ⟨a, ha, h⟩ := Option.bind_eq_some_iff.mp h
    cases h
    refine hs.setScratch fun r hr => ?_
    obtain ⟨hfollow, hsome⟩ := Bool.and_eq_true_iff.mp (List.mem_filter.mp hr).2
    obtain ⟨oid, hoid⟩ := Option.isSome_iff_exists.mp hsome
    refine ⟨a.settings.follow_ref (by simpa using hfollow), fun _ => Or.inl ⟨s.upstream, hs.upstream, ?_⟩⟩
    rw [hoid, Option.getD_some]
  | publish k t =>
    obtain ⟨a, ha, h⟩ := Option.bind_eq_some_iff.mp h
    split at h
    · rename_i p hp
      cases h
      refine hs.keeps ⟨fun _ => id, fun _ _ => id⟩ ⟨hs.cluster, hs.judged⟩ hs.upstream
        (fun _ _ _ => Or.inl) fun q hq => ?_
      rcases List.mem_cons.mp hq with rfl | hq
      · refine Or.inr ⟨fun u hu => ?_, fun u hu u' hu' heq => ?_⟩
        swap
        · obtain ⟨-, -, htip, -⟩ := op_some (hgit k t rfl) hp u hu
          obtain ⟨-, -, htip', -⟩ := op_some (hgit k t rfl) hp u' hu'
          rw [heq, htip] at htip'
          exact (Option.some.inj htip').symm
        obtain ⟨hname, hsym, htip, hforward⟩ := op_some (hgit k t rfl) hp u hu
        obtain ⟨rest, hrest, hfind⟩ := find?_readScratch htip
        obtain ⟨r, hr, hfollow, hsaw⟩ := hs.scratch a.site _ _ hfind
        obtain ⟨rest', hrest', hname'⟩ := followRef_eq hr
        rw [hname'] at hfollow
        have hsame : rest = rest' := by
          rw [← String.toList_inj, String.toList_append, String.toList_append] at hfollow
          exact String.toList_inj.mp (List.append_cancel_left hfollow)
        rw [← hsame, ← hrest] at hrest'
        rw [hrest'] at hsaw
        exact ⟨hname, hsym, (s.scratch a.site).real _ _ hfind, hsaw, hforward⟩
      · exact Or.inl hq
    · cases h
      exact hs

theorem ok_created (access : Option RepoAccess) (now : Timestamp) (writer : String)
    (upstream : GitRefs) : (created (createdManifest access now writer) upstream).Ok cfg parents where
  cluster := Cluster.ok_created cfg access now writer
  judged := by
    refine ⟨trivial, ?_⟩
    rintro o ⟨⟩
  upstream := List.mem_singleton_self _
  scratch site name oid h := by
    rw [created, GitRefs.empty, SortedMap.find?_empty] at h
    cases h
  made p hp := by cases hp

end Ingress

end Safety

section Values

variable {parents : String → List String}

/-- What the updates of a ref in one transaction have in common, its value has after them. -/
theorem find?_foldl_applyUpdate {us : List RefUpdate} {s : RefState} {r : String}
    {P : String → Prop} (h : ∀ u ∈ us, u.name = r → u.symbolic = true ∨
      isNullOid u.newOid = false ∧ P u.newOid)
    (hs : (∃ x, s.refs.find? r = some x ∧ P x) ∨ ∃ u ∈ us, u.name = r ∧ u.symbolic = false) :
    ∃ y, (us.foldl RefState.applyUpdate s).refs.find? r = some y ∧ P y := by
  change ∃ y, (us.foldl RefState.applyUpdate s).cells (some r) = some y ∧ P y
  rw [RefState.cells_applyUpdates]
  -- A plain update of the ref writes its new value.
  have hwrite : ∀ u ∈ us, u.name = r → u.symbolic = false →
      u.write = some (some r, some u.newOid) ∧ P u.newOid := by
    intro u hu hname hsym
    obtain ⟨hnull, hP⟩ := (h u hu hname).resolve_left (by simp [hsym])
    exact ⟨by simp [RefUpdate.write, hsym, hnull, hname], hP⟩
  rcases Overwrite.run_value s.cells (us.filterMap RefUpdate.write) (some r) with
    ⟨w, hw, hkey, hvalue⟩ | ⟨hnone, hsame⟩
  · obtain ⟨u, hu, huw⟩ := List.mem_filterMap.mp hw
    have hplain : u.name = r ∧ u.symbolic = false := by
      unfold RefUpdate.write at huw
      split_ifs at huw with hsym <;> cases huw
      · cases hkey
      · exact ⟨Option.some.inj hkey, by simpa using hsym⟩
      · exact ⟨Option.some.inj hkey, by simpa using hsym⟩
    obtain ⟨hwrites, hP⟩ := hwrite u hu hplain.1 hplain.2
    rw [huw] at hwrites
    exact ⟨u.newOid, by rw [hvalue, Option.some.inj hwrites], hP⟩
  · rcases hs with hs | ⟨u, hu, hname, hsym⟩
    · rwa [hsame]
    · exact absurd rfl (hnone _ (List.mem_filterMap.mpr ⟨u, hu, (hwrite u hu hname hsym).1⟩))

end Values

section Runs

variable [CharTables] {cfg : Config} {parents : String → List String} {v : Ingress}

/-- A request that is committed over a value of a followed ref moves it forward. -/
theorem Made.Ok.forward {p : Made} (hp : p.Ok parents v) {s : RefState}
    (hswaps : s.Swaps p.request.txn) {u : RefUpdate} (hu : u ∈ p.request.txn.updates) {old : String}
    (hold : s.refs.find? u.name = some old) : Descends parents u.newOid old := by
  obtain ⟨hfollow, hsym, -, -, hforward⟩ := hp.updates u hu
  have hmatches := hswaps u hu (by simp [RefUpdate.plain, hsym]) (p.settings.follow_ref hfollow)
  rw [RefState.oldMatches, hold] at hmatches
  split_ifs at hmatches with hnull
  rw [Option.some.inj hmatches]
  exact hforward.resolve_left fun hempty => hnull (by rw [hempty]; rfl)

/-- Along transactions that are swaps, a ref that only the op moves goes forward. -/
theorem descends_foldl {s : RefState} {ts : List RefTransaction} {r a : String}
    (hmade : ∀ t ∈ ts, ∀ u ∈ t.updates, u.name = r → ∃ p : Made, p.Ok parents v ∧ p.request.txn = t)
    (hswaps : Replay.Along RefState.applyTxn RefState.Swaps s ts)
    (hs : ∃ x, s.refs.find? r = some x ∧ Descends parents x a) :
    ∃ y, (ts.foldl RefState.applyTxn s).refs.find? r = some y ∧ Descends parents y a := by
  induction ts generalizing s with
  | nil => exact hs
  | cons t ts ih =>
    obtain ⟨hhead, htail⟩ := hswaps
    refine ih (fun t' ht' => hmade t' (List.mem_cons_of_mem t ht')) htail ?_
    refine find?_foldl_applyUpdate (fun u hu hname => Or.inr ?_) (Or.inl hs)
    obtain ⟨p, hp, rfl⟩ := hmade t List.mem_cons_self u hu hname
    obtain ⟨x, hx, hdesc⟩ := hs
    rw [← hname] at hx
    exact ⟨(hp.updates u hu).2.2.1, (hp.forward hhead hu hx).trans hdesc⟩

end Runs

section Mirrored

attribute [local instance] Text.asciiTables

def mirrorUrl : String := "https://git.example/acme/monorepo.git"

/-- A host whose repositories follow `main` of an upstream. -/
def mirroring : Settings where
  config :=
    HostConfig.update (fun _ => .optionalText (some mirrorUrl)) ["upstream", "git"]
      (HostConfig.update (fun _ => .texts ["refs/heads/main"]) ["upstream", "follow"]
        HostConfig.defaults)
  valid := by decide +kernel

def mainAt (oid : String) : GitRefs := GitRefs.empty.update "refs/heads/main" oid

def lineage (commit : String) : List String := if commit = oidB then [oidA] else []

/-- Git of the site: the objects are there, and `oidA` is the parent of `oidB`. -/
def gitTools : Tools := ⟨.ok none, fun _ => .ok (), fun old new => .ok (old = oidA && new = oidB)⟩

def follows (k : ℕ) : List Move :=
  [.begin k 0 mirroring, .seed k, .fetched k ["refs/heads/main"], .publish k gitTools]

def publishes (t : ℕ) (nonce old new : String) : List Move :=
  (Cluster.publish 0 t nonce [requestOf mirrorUrl none [⟨"refs/heads/main", old, new, ""⟩]]).map .deed

/-- Upstream's branch is taken over, and moves on; then upstream is rewound. -/
def mirrored : List Move :=
  .deed (.openRepo 0 none) :: follows 0 ++ publishes 1 "a" "" oidA ++ [.serve (mainAt oidB)] ++
    follows 1 ++ publishes 2 "b" oidA oidB ++ [.serve (mainAt oidA)] ++ follows 2

theorem gitTools_right : gitTools.Right lineage := by
  intro old new h
  have hboth : (decide (old = oidA) && decide (new = oidB)) = true := Except.ok.inj h
  simp only [Bool.and_eq_true, decide_eq_true_eq] at hboth
  rw [hboth.1, hboth.2]
  exact .single (by simp [lineage])

end Mirrored

end Walgit.Following
