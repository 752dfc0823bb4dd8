import Mathlib.Data.List.Dedup
import Walgit.Framing
import Walgit.TreeDiff

/-!
# Objects of a commit's diff

Before git renders a commit of a repository whose packs are not here, the objects it will read are
written into the local store: level by level the trees on differing paths, and the blobs of the
entries that differ.
-/
namespace Walgit.Web

open Remote (Obj)

/-- Cap on objects faulted for one commit diff. -/
def maxDiffObjects : ℕ := 20000

/-- What the local store answers to a write, and to being opened anew. -/
structure Disk where
  write : Oid → Except String Unit
  refresh : Except String Unit

/-- What was written into the local store, the newest first. -/
abbrev Faulted := List (Oid × Obj)

def Faulted.oids (s : Faulted) : List Oid := s.map Prod.fst

/-- How a request ends that does not come to its end. What it wrote until then is there. -/
inductive Halt where
  | failed (e : ApiError) (s : Faulted)
  | outOfFuel

def reading {α : Type} (s : Faulted) (x : Except ApiError α) : Except Halt α :=
  x.mapError fun e => .failed e s

def sortDedup (oids : List Oid) : List Oid := (oids.insertionSort (· ≤ ·)).dedup

def sidesOf (level : List TreePair) : List Oid :=
  level.flatMap fun p => p.1.toList ++ p.2.toList

namespace Packs

section Code

variable (r : Packs) (d : Disk)

def writeOne (s : Faulted) (p : Oid × Obj) : Except Halt Faulted :=
  match d.write p.1 with
  | .error e => .error (.failed (.internal ("fault object " ++ p.1 ++ ": " ++ e)) s)
  | .ok () => .ok (p :: s)

def writeLocal (s : Faulted) (batch : List (Oid × Obj)) : Except Halt Faulted :=
  (batch.filter fun p => p.1 ∉ s.oids).foldlM (writeOne d) s

def fault (s : Faulted) (oid : Oid) : Except Halt Faulted := do
  let o ← reading s (r.get oid)
  writeLocal d s [(oid, o)]

def faultChunk (s : Faulted) (chunk : List Oid) : Except Halt Faulted := do
  let objs ← reading s (chunk.mapM r.get)
  writeLocal d s (chunk.zip objs)

/-- A batch, skipping what is already local. -/
def faultMany (s : Faulted) (oids : List Oid) : Except Halt Faulted :=
  (Framing.chunks 32 (oids.filter fun oid => oid ∉ s.oids)).foldlM (r.faultChunk d) s

def sideEntries : Option Oid → Except ApiError (List TreeEntryRef)
  | none => .ok []
  | some t => r.treeEntries t

def walkPair (p : TreePair) : Except ApiError (List TreePair × List Oid) := do
  let ea ← r.sideEntries p.1
  let eb ← r.sideEntries p.2
  .ok (mergeWalk ea eb)

def tooLarge (id : Oid) (s : Faulted) : Halt :=
  .failed (.serviceUnavailable ("commit " ++ id ++
    " touches more than 20000 objects; too large to render from the remote pack set")) s

/-- The levels of the walk, with the objects counted so far. -/
def diffLevels (id : Oid) : ℕ → ℕ → List TreePair → Faulted → Except Halt Faulted
  | 0, _, _, _ => .error .outOfFuel
  | fuel + 1, count, level, s =>
    if level = [] then .ok s
    else
      let want := sortDedup (sidesOf level)
      let count := count + want.length
      if maxDiffObjects < count then .error (tooLarge id s)
      else do
        let s ← r.faultMany d s want
        let found ← reading s (level.mapM r.walkPair)
        let blobs := sortDedup (found.flatMap Prod.snd)
        let count := count + blobs.length
        if maxDiffObjects < count then .error (tooLarge id s)
        else do
          let s ← r.faultMany d s blobs
          diffLevels id fuel count (found.flatMap Prod.fst) s

def faultParent (s : Faulted) (p : Oid) : Except Halt Faulted := do
  let pm ← reading s (r.commit p)
  let s ← r.fault d s p
  r.fault d s pm.tree

/-- The parents, with the trees of all but the first one; what is compared are the trees of that
one and the commit. -/
def faultParents (c : CommitMeta) (s : Faulted) : Except Halt (Faulted × List TreePair) :=
  match c.parents with
  | [] => .ok (s, [(none, some c.tree)])
  | p :: rest => do
    let pm ← reading s (r.commit p)
    let s ← r.fault d s p
    let s ← rest.foldlM (r.faultParent d) s
    .ok (s, [(some pm.tree, some c.tree)])

def faultCommitDiff (s : Faulted) (id : Oid) : Except Halt (CommitMeta × Faulted) := do
  let c ← reading s (r.commit id)
  let s ← r.fault d s id
  let (s, level) ← r.faultParents d c s
  let s ← r.diffLevels d c.id (maxDiffObjects + 1) 0 level s
  match d.refresh with
  | .error e => .error (.failed (.internal e) s)
  | .ok () => .ok (c, s)

end Code

section Writes

variable {r : Packs} {d : Disk} {s s' s'' : Faulted}

/-- Objects of the packs that were written, and nothing else. -/
structure Wrote (r : Packs) (s : Faulted) (oids : List Oid) (s' : Faulted) : Prop where
  kept : ∀ p ∈ s, p ∈ s'
  there : ∀ oid ∈ oids, oid ∈ s'.oids
  only : ∀ p ∈ s', p ∈ s ∨ p.1 ∈ oids ∧ r.get p.1 = .ok p.2
  length : s'.length ≤ s.length + oids.length

theorem mem_oids {oid : Oid} : oid ∈ s.oids ↔ ∃ p ∈ s, p.1 = oid := List.mem_map

theorem Wrote.refl (r : Packs) (s : Faulted) : r.Wrote s [] s :=
  ⟨fun _ hp => hp, by simp, fun _ hp => Or.inl hp, Nat.le_refl _⟩

theorem Wrote.trans {a b : List Oid} (h : r.Wrote s a s') (h' : r.Wrote s' b s'') :
    r.Wrote s (a ++ b) s'' := by
  refine ⟨fun p hp => h'.kept p (h.kept p hp), fun oid hoid => ?_, fun p hp => ?_, ?_⟩
  · rcases List.mem_append.mp hoid with hoid | hoid
    · obtain ⟨p, hp, rfl⟩ := mem_oids.mp (h.there oid hoid)
      exact mem_oids.mpr ⟨p, h'.kept p hp, rfl⟩
    · exact h'.there oid hoid
  · rcases h'.only p hp with hp | ⟨hmem, hget⟩
    · rcases h.only p hp with hp | ⟨hmem, hget⟩
      · exact Or.inl hp
      · exact Or.inr ⟨List.mem_append_left b hmem, hget⟩
    · exact Or.inr ⟨List.mem_append_right a hmem, hget⟩
  · have hfirst := h.length
    have hrest := h'.length
    rw [List.length_append]
    omega

/-- What is there after writes was there before or was written. -/
theorem Wrote.mem_iff {oids : List Oid} (h : r.Wrote s oids s') (oid : Oid) :
    oid ∈ s'.oids ↔ oid ∈ s.oids ∨ oid ∈ oids := by
  constructor
  · intro hoid
    obtain ⟨p, hp, rfl⟩ := mem_oids.mp hoid
    rcases h.only p hp with hp | ⟨hmem, -⟩
    · exact Or.inl (mem_oids.mpr ⟨p, hp, rfl⟩)
    · exact Or.inr hmem
  · rintro (hoid | hoid)
    · obtain ⟨p, hp, rfl⟩ := mem_oids.mp hoid
      exact mem_oids.mpr ⟨p, h.kept p hp, rfl⟩
    · exact h.there oid hoid

theorem reading_ok {α : Type} {x : Except ApiError α} {a : α} :
    reading s x = .ok a ↔ x = .ok a := by
  cases x <;> simp [reading, Except.mapError]

theorem writeLocal_ok {batch : List (Oid × Obj)} (hbatch : ∀ p ∈ batch, r.get p.1 = .ok p.2)
    (h : writeLocal d s batch = .ok s') : r.Wrote s (batch.map Prod.fst) s' := by
  have hwritten : ∀ (todo : List (Oid × Obj)) (t t' : Faulted),
      todo.foldlM (writeOne d) t = .ok t' → t' = todo.reverse ++ t := by
    intro todo
    induction todo with
    | nil =>
      rintro t t' h
      cases h
      rfl
    | cons p todo ih =>
      intro t t' h
      rw [List.foldlM_cons, Checks.bind_eq_ok] at h
      obtain ⟨t₁, hstep, hrest⟩ := h
      unfold writeOne at hstep
      cases hwrite : d.write p.1 with
      | error e =>
        rw [hwrite] at hstep
        cases hstep
      | ok u =>
        rw [hwrite] at hstep
        cases hstep
        rw [ih _ _ hrest]
        simp
  obtain rfl := hwritten _ _ _ h
  refine ⟨fun p hp => List.mem_append_right _ hp, fun oid hoid => ?_, fun p hp => ?_, ?_⟩
  · obtain ⟨p, hp, rfl⟩ := List.mem_map.mp hoid
    by_cases hmem : p.1 ∈ s.oids
    · obtain ⟨q, hq, heq⟩ := mem_oids.mp hmem
      exact mem_oids.mpr ⟨q, List.mem_append_right _ hq, heq⟩
    · refine mem_oids.mpr ⟨p, List.mem_append_left _ (List.mem_reverse.mpr ?_), rfl⟩
      exact List.mem_filter.mpr ⟨hp, by simpa using hmem⟩
  · rcases List.mem_append.mp hp with hp | hp
    · have hmem := (List.mem_filter.mp (List.mem_reverse.mp hp)).1
      exact Or.inr ⟨List.mem_map_of_mem hmem, hbatch p hmem⟩
    · exact Or.inl hp
  · have hle := List.length_filter_le (fun p : Oid × Obj => p.1 ∉ s.oids) batch
    rw [List.length_append, List.length_reverse, List.length_map]
    omega

theorem fault_ok {oid : Oid} (h : r.fault d s oid = .ok s') : r.Wrote s [oid] s' := by
  obtain ⟨o, ho, h⟩ := Checks.bind_eq_ok.mp h
  have hget := reading_ok.mp ho
  exact writeLocal_ok (by simpa using hget) h

theorem mapM_zip {f : Oid → Except ApiError Obj} {chunk : List Oid} {objs : List Obj}
    (h : chunk.mapM f = .ok objs) :
    (chunk.zip objs).map Prod.fst = chunk ∧ ∀ p ∈ chunk.zip objs, f p.1 = .ok p.2 := by
  induction chunk generalizing objs with
  | nil => simp
  | cons oid chunk ih =>
    simp only [List.mapM_cons, Checks.bind_eq_ok] at h
    obtain ⟨o, ho, os, hos, hobjs⟩ := h
    cases hobjs
    obtain ⟨hfst, hall⟩ := ih hos
    rw [List.zip_cons_cons, List.map_cons, hfst, List.forall_mem_cons]
    exact ⟨rfl, ho, hall⟩

theorem faultMany_ok {oids : List Oid} (h : r.faultMany d s oids = .ok s') :
    r.Wrote s oids s' := by
  have hchunks : ∀ (chunks : List (List Oid)) (t t' : Faulted),
      chunks.foldlM (r.faultChunk d) t = .ok t' → r.Wrote t chunks.flatten t' := by
    intro chunks
    induction chunks with
    | nil =>
      rintro t t' h
      cases h
      exact .refl r t
    | cons chunk chunks ih =>
      intro t t' h
      rw [List.foldlM_cons, Checks.bind_eq_ok] at h
      obtain ⟨t₁, hstep, hrest⟩ := h
      obtain ⟨objs, hobjs, hwrite⟩ := Checks.bind_eq_ok.mp hstep
      obtain ⟨hfst, hget⟩ := mapM_zip (reading_ok.mp hobjs)
      have hwrote := writeLocal_ok hget hwrite
      rw [hfst] at hwrote
      exact hwrote.trans (ih _ _ hrest)
  have hwrote := hchunks _ _ _ h
  rw [Framing.flatten_chunks (by decide)] at hwrote
  have hle := List.length_filter_le (fun oid => oid ∉ s.oids) oids
  refine ⟨hwrote.kept, fun oid hoid => ?_, fun p hp => ?_, ?_⟩
  · refine (hwrote.mem_iff oid).mpr ?_
    by_cases hmem : oid ∈ s.oids
    · exact Or.inl hmem
    · exact Or.inr (List.mem_filter.mpr ⟨hoid, by simpa using hmem⟩)
  · rcases hwrote.only p hp with hp | ⟨hmem, hget⟩
    · exact Or.inl hp
    · exact Or.inr ⟨(List.mem_filter.mp hmem).1, hget⟩
  · exact hwrote.length.trans (Nat.add_le_add_left hle _)

end Writes

section Paths

variable (r : Packs)

/-- The trees of the packs are what git asks of trees. -/
def TreesOk : Prop := ∀ t es, r.treeEntries t = .ok es → TreeOk es

def entriesOf (side : Option Oid) : List TreeEntryRef :=
  match r.sideEntries side with
  | .ok es => es
  | .error _ => []

def childAt (e : Option TreeEntryRef) (name : Name) : Option TreeEntryRef :=
  entryIn (r.entriesOf (below e)) name

/-- What a path leads to. -/
def lookup (e : Option TreeEntryRef) : List Name → Option TreeEntryRef
  | [] => e
  | name :: path => lookup (r.childAt e name) path

/-- What the comparison of two trees finds. -/
def found (p : TreePair) : List TreePair × List Oid :=
  mergeWalk (r.entriesOf p.1) (r.entriesOf p.2)

def Descends : TreePair → TreePair → Prop :=
  Relation.ReflTransGen fun p q => q ∈ (r.found p).1

variable {r}

theorem walkPair_ok {p : TreePair} {f : List TreePair × List Oid} (h : r.walkPair p = .ok f) :
    f = r.found p := by
  obtain ⟨ea, hea, h⟩ := Checks.bind_eq_ok.mp h
  obtain ⟨eb, heb, h⟩ := Checks.bind_eq_ok.mp h
  cases h
  rw [found, entriesOf, entriesOf, hea, heb]

theorem treeOk_entriesOf (h : r.TreesOk) (side : Option Oid) : TreeOk (r.entriesOf side) := by
  cases side with
  | none => exact ⟨List.Pairwise.nil, List.nodup_nil, by simp [entriesOf, sideEntries]⟩
  | some t =>
    cases ht : r.treeEntries t with
    | ok es =>
      have hes : r.entriesOf (some t) = es := by rw [entriesOf, sideEntries, ht]
      rw [hes]
      exact h t es ht
    | error e =>
      have hes : r.entriesOf (some t) = [] := by rw [entriesOf, sideEntries, ht]
      rw [hes]
      exact ⟨List.Pairwise.nil, List.nodup_nil, by simp⟩

theorem below_congr {x y : Option TreeEntryRef} (h : content x = content y) : below x = below y := by
  cases x <;> cases y <;> simp_all [TreeEntryRef.isTree]

theorem lookup_append (e : Option TreeEntryRef) (path : List Name) (name : Name) :
    r.lookup e (path ++ [name]) = r.childAt (r.lookup e path) name := by
  induction path generalizing e with
  | nil => rfl
  | cons first path ih => exact ih _

/-- What differs behind a path differs on it, and not both sides end there. -/
theorem differs_of_lookup {x y : Option TreeEntryRef} {path : List Name}
    (hne : path ≠ []) (h : content (r.lookup x path) ≠ content (r.lookup y path)) :
    content x ≠ content y ∧ (below x, below y) ≠ (none, none) := by
  cases path with
  | nil => exact absurd rfl hne
  | cons name path =>
    have hbelow : below x ≠ below y := by
      intro heq
      rw [lookup, lookup, childAt, childAt, heq] at h
      exact h rfl
    refine ⟨fun heq => hbelow (below_congr heq), fun heq => ?_⟩
    obtain ⟨hx, hy⟩ := Prod.mk.inj heq
    exact hbelow (hx.trans hy.symm)

/-- The pairs of trees the walk comes to are those under differing paths. -/
theorem descends_iff (htrees : r.TreesOk) {x y : Option TreeEntryRef} {q : TreePair} :
    r.Descends (below x, below y) q ↔ q = (below x, below y) ∨ ∃ path, path ≠ [] ∧
      content (r.lookup x path) ≠ content (r.lookup y path) ∧
        q = (below (r.lookup x path), below (r.lookup y path)) ∧ q ≠ (none, none) := by
  have hstep : ∀ (x y : Option TreeEntryRef) (q : TreePair),
      q ∈ (r.found (below x, below y)).1 ↔ ∃ name,
        content (r.childAt x name) ≠ content (r.childAt y name) ∧
          q = (below (r.childAt x name), below (r.childAt y name)) ∧ q ≠ (none, none) :=
    fun x y => (mem_mergeWalk (treeOk_entriesOf htrees _) (treeOk_entriesOf htrees _)).1
  constructor
  · intro h
    generalize hp : (below x, below y) = p at h
    induction h using Relation.ReflTransGen.head_induction_on generalizing x y with
    | refl => exact Or.inl rfl
    | head hpq _ ih =>
      subst hp
      obtain ⟨name, hdiffers, rfl, hsome⟩ := (hstep x y _).mp hpq
      rcases ih rfl with rfl | ⟨path, hne, hpath⟩
      · exact Or.inr ⟨[name], by simp, hdiffers, rfl, hsome⟩
      · exact Or.inr ⟨name :: path, by simp, hpath⟩
  · rintro (rfl | ⟨path, hne, hdiffers, hq, hsome⟩)
    · exact .refl
    · induction path generalizing x y with
      | nil => exact absurd rfl hne
      | cons name path ih =>
        by_cases hnil : path = []
        · subst hnil
          exact .single ((hstep x y q).mpr ⟨name, hdiffers, hq, hsome⟩)
        · obtain ⟨hfirst, hboth⟩ := differs_of_lookup hnil hdiffers
          exact .head ((hstep x y _).mpr ⟨name, hfirst, rfl, hboth⟩) (ih hnil hdiffers hq)

/-- The objects of a path that the two sides need, where they differ on it. -/
def Needed (r : Packs) (x y : Option TreeEntryRef) (path : List Name) (oid : Oid) : Prop :=
  content (r.lookup x path) ≠ content (r.lookup y path) ∧
    (below (r.lookup x path) = some oid ∨ below (r.lookup y path) = some oid ∨
      oid ∈ blobsOf (r.lookup x path) ∨
        oid ∈ blobsOf (r.lookup y path) ∧ ¬ Hides (r.lookup x path) (r.lookup y path))

/-- The objects of the pairs the walk comes to are the two trees, and what is needed behind
them. -/
theorem touched_iff (htrees : r.TreesOk) {x y : Option TreeEntryRef} {oid : Oid} :
    (∃ q, r.Descends (below x, below y) q ∧ (oid ∈ sidesOf [q] ∨ oid ∈ (r.found q).2)) ↔
      below x = some oid ∨ below y = some oid ∨ ∃ path, path ≠ [] ∧ r.Needed x y path oid := by
  have hblobs : ∀ (x y : Option TreeEntryRef), oid ∈ (r.found (below x, below y)).2 ↔ ∃ name,
      content (r.childAt x name) ≠ content (r.childAt y name) ∧
        (oid ∈ blobsOf (r.childAt x name) ∨
          oid ∈ blobsOf (r.childAt y name) ∧ ¬ Hides (r.childAt x name) (r.childAt y name)) :=
    fun x y => (mem_mergeWalk (treeOk_entriesOf htrees _) (treeOk_entriesOf htrees _)).2 oid
  have hsides : ∀ x y : Option Oid, oid ∈ sidesOf [(x, y)] ↔ x = some oid ∨ y = some oid := by
    simp [sidesOf]
  constructor
  · rintro ⟨q, hq, hoid⟩
    rcases (descends_iff htrees).mp hq with rfl | ⟨path, hne, hdiffers, rfl, -⟩
    · rcases hoid with hoid | hoid
      · exact ((hsides _ _).mp hoid).imp_right Or.inl
      · obtain ⟨name, hname, hblob⟩ := (hblobs x y).mp hoid
        exact Or.inr (Or.inr ⟨[name], by simp, hname, Or.inr (Or.inr hblob)⟩)
    · refine Or.inr (Or.inr ?_)
      rcases hoid with hoid | hoid
      · exact ⟨path, hne, hdiffers, ((hsides _ _).mp hoid).imp_right Or.inl⟩
      · obtain ⟨name, hname, hblob⟩ := (hblobs _ _).mp hoid
        refine ⟨path ++ [name], by simp, ?_⟩
        rw [Needed, lookup_append, lookup_append]
        exact ⟨hname, Or.inr (Or.inr hblob)⟩
  · rintro (hx | hy | ⟨path, hne, hdiffers, hoid⟩)
    · exact ⟨_, .refl, Or.inl ((hsides _ _).mpr (Or.inl hx))⟩
    · exact ⟨_, .refl, Or.inl ((hsides _ _).mpr (Or.inr hy))⟩
    · by_cases htree : below (r.lookup x path) = some oid ∨ below (r.lookup y path) = some oid
      · refine ⟨_, (descends_iff htrees).mpr (Or.inr ⟨path, hne, hdiffers, rfl, fun heq => ?_⟩),
          Or.inl ((hsides _ _).mpr htree)⟩
        obtain ⟨hx, hy⟩ := Prod.mk.inj heq
        rw [hx, hy] at htree
        simp at htree
      · have hblob := (or_assoc.mpr hoid).resolve_left htree
        -- The blob is an entry of the pair of trees its path goes through last.
        obtain ⟨init, name, rfl⟩ : ∃ init name, path = init ++ [name] :=
          ⟨_, _, (List.dropLast_append_getLast hne).symm⟩
        rw [lookup_append, lookup_append] at hdiffers hblob
        refine ⟨(below (r.lookup x init), below (r.lookup y init)), ?_,
          Or.inr ((hblobs _ _).mpr ⟨name, hdiffers, hblob⟩)⟩
        by_cases hinit : init = []
        · subst hinit
          exact .refl
        · have hlast : [name] ≠ [] := List.cons_ne_nil _ _
          obtain ⟨hfirst, hboth⟩ := differs_of_lookup hlast hdiffers
          exact (descends_iff htrees).mpr (Or.inr ⟨init, hinit, hfirst, rfl, hboth⟩)

end Paths

section Levels

variable {r : Packs} {d : Disk}

theorem mapM_walkPair {level : List TreePair} {fs : List (List TreePair × List Oid)}
    (h : level.mapM r.walkPair = .ok fs) : fs = level.map r.found := by
  induction level generalizing fs with
  | nil =>
    cases h
    rfl
  | cons p level ih =>
    simp only [List.mapM_cons, Checks.bind_eq_ok] at h
    obtain ⟨f, hf, rest, hrest, hfs⟩ := h
    cases hfs
    rw [List.map_cons, walkPair_ok hf, ih hrest]

theorem mem_sortDedup {oids : List Oid} {oid : Oid} : oid ∈ sortDedup oids ↔ oid ∈ oids := by
  rw [sortDedup, List.mem_dedup]
  exact (List.perm_insertionSort _ _).mem_iff

theorem mem_sidesOf {level : List TreePair} {oid : Oid} :
    oid ∈ sidesOf level ↔ ∃ p ∈ level, oid ∈ sidesOf [p] := by
  simp [sidesOf]

/-- The levels write what the pairs have that are come to from the first one. -/
theorem diffLevels_ok {id : Oid} {fuel count : ℕ} {level : List TreePair} {s s' : Faulted}
    (hcount : count ≤ maxDiffObjects) (h : r.diffLevels d id fuel count level s = .ok s') :
    ∃ oids, r.Wrote s oids s' ∧ count + oids.length ≤ maxDiffObjects ∧
      ∀ oid, oid ∈ oids ↔
        ∃ p ∈ level, ∃ q, r.Descends p q ∧ (oid ∈ sidesOf [q] ∨ oid ∈ (r.found q).2) := by
  induction fuel generalizing count level s with
  | zero => cases h
  | succ fuel ih =>
    rw [diffLevels] at h
    dsimp only at h
    split_ifs at h with hlevel hwant
    · cases h
      exact ⟨[], .refl r _, hcount, by simp [hlevel]⟩
    · obtain ⟨s₁, hs₁, h⟩ := Checks.bind_eq_ok.mp h
      obtain ⟨fs, hfs, h⟩ := Checks.bind_eq_ok.mp h
      obtain rfl := mapM_walkPair (reading_ok.mp hfs)
      split_ifs at h with hblobs
      obtain ⟨s₂, hs₂, h⟩ := Checks.bind_eq_ok.mp h
      obtain ⟨oids, hwrote, hlength, hmem⟩ := ih (Nat.le_of_not_lt hblobs) h
      refine ⟨_, ((faultMany_ok hs₁).trans (faultMany_ok hs₂)).trans hwrote, ?_, fun oid => ?_⟩
      · rw [List.length_append, List.length_append]
        omega
      · rw [List.mem_append, List.mem_append, mem_sortDedup, mem_sortDedup, mem_sidesOf, hmem]
        simp only [List.flatMap_map, List.mem_flatMap]
        constructor
        · rintro ((⟨p, hp, hoid⟩ | ⟨p, hp, hoid⟩) | ⟨q, ⟨p, hp, hq⟩, hrest⟩)
          · exact ⟨p, hp, p, .refl, Or.inl hoid⟩
          · exact ⟨p, hp, p, .refl, Or.inr hoid⟩
          · obtain ⟨q', hdesc, hoid⟩ := hrest
            exact ⟨p, hp, q', .head hq hdesc, hoid⟩
        · rintro ⟨p, hp, q, hdesc, hoid⟩
          rcases Relation.ReflTransGen.cases_head hdesc with rfl | ⟨p', hp', hdesc⟩
          · exact Or.inl (hoid.imp (fun h => ⟨p, hp, h⟩) fun h => ⟨p, hp, h⟩)
          · exact Or.inr ⟨p', ⟨p, hp, hp'⟩, q, hdesc, hoid⟩

theorem reading_fuel {α : Type} {s : Faulted} {x : Except ApiError α} :
    reading s x ≠ .error .outOfFuel := by
  cases x <;> simp [reading, Except.mapError]

theorem writeLocal_fuel {s : Faulted} {batch : List (Oid × Obj)} :
    writeLocal d s batch ≠ .error .outOfFuel := by
  refine Checks.foldlM_error fun s p => ?_
  rw [writeOne]
  cases d.write p.1 <;> simp

theorem fault_fuel {s : Faulted} {oid : Oid} : r.fault d s oid ≠ .error .outOfFuel :=
  Checks.bind_ne_error reading_fuel fun _ _ => writeLocal_fuel

theorem faultMany_fuel {s : Faulted} {oids : List Oid} :
    r.faultMany d s oids ≠ .error .outOfFuel :=
  Checks.foldlM_error fun _ _ => Checks.bind_ne_error reading_fuel fun _ _ => writeLocal_fuel

/-- No step of a walk leaves two trees that are not there. -/
theorem diffStep_ne (p : Option TreeEntryRef × Option TreeEntryRef) :
    (none, none) ∉ (diffStep p).1 := by
  rcases p with ⟨_ | x, _ | y⟩
  · simp [diffStep]
  · cases h : y.isTree <;> simp [diffStep, h]
  · cases h : x.isTree <;> simp [diffStep, h]
  · rw [diffStep]
    split_ifs <;> simp

theorem found_ne (p : TreePair) : (none, none) ∉ (r.found p).1 := by
  intro h
  simp only [found, mergeWalk, List.mem_flatMap, List.mem_map, exists_exists_and_eq_and] at h
  obtain ⟨step, -, hmem⟩ := h
  exact diffStep_ne step hmem

/-- Every level counts an object, so the cap ends the walk. -/
theorem diffLevels_fuel {id : Oid} {fuel count : ℕ} {level : List TreePair} {s : Faulted}
    (hlevel : (none, none) ∉ level) (hcount : count ≤ maxDiffObjects)
    (hfuel : maxDiffObjects - count < fuel) :
    r.diffLevels d id fuel count level s ≠ .error .outOfFuel := by
  induction fuel generalizing count level s with
  | zero => exact absurd hfuel (Nat.not_lt_zero _)
  | succ fuel ih =>
    rw [diffLevels]
    dsimp only
    split_ifs with hnil hwant
    · simp
    · simp [tooLarge]
    · refine Checks.bind_ne_error faultMany_fuel fun s₁ _ => ?_
      refine Checks.bind_ne_error reading_fuel fun fs hfs => ?_
      obtain rfl := mapM_walkPair (reading_ok.mp hfs)
      split_ifs with hblobs
      · simp [tooLarge]
      · refine Checks.bind_ne_error faultMany_fuel fun s₂ _ => ih ?_ (Nat.le_of_not_lt hblobs) ?_
        · simp only [List.flatMap_map, List.mem_flatMap, not_exists, not_and]
          exact fun p _ => found_ne p
        · have hpos : 0 < (sortDedup (sidesOf level)).length := by
            obtain ⟨p, hp⟩ := List.exists_mem_of_ne_nil level hnil
            have hside : ∃ oid, oid ∈ sidesOf [p] := by
              rcases p with ⟨_ | a, _ | b⟩
              · exact absurd hp hlevel
              · exact ⟨b, by simp [sidesOf]⟩
              · exact ⟨a, by simp [sidesOf]⟩
              · exact ⟨a, by simp [sidesOf]⟩
            obtain ⟨oid, hoid⟩ := hside
            exact List.length_pos_of_mem (mem_sortDedup.mpr (mem_sidesOf.mpr ⟨p, hp, hoid⟩))
          omega

end Levels

section Request

variable {r : Packs} {d : Disk} {s s' : Faulted}

def rootEntry (tree : Oid) : TreeEntryRef := ⟨[], tree, 0o040000⟩

/-- The tree a commit is compared with: that of its first parent. -/
def oldRoot (r : Packs) (c : CommitMeta) : Option TreeEntryRef :=
  c.parents.head?.bind fun p => (r.commit p).toOption.map fun pm => rootEntry pm.tree

theorem below_rootEntry (tree : Oid) : below (some (rootEntry tree)) = some tree := by
  have hbits : TreeEntryRef.kindBits 0o040000 = 0o040000 := rfl
  have h : (rootEntry tree).isTree = true := by
    rw [rootEntry, TreeEntryRef.isTree, hbits, decide_eq_true rfl]
  rw [below_some, h]
  rfl

theorem faultParent_ok {p : Oid} (h : r.faultParent d s p = .ok s') :
    ∃ pm, r.commit p = .ok pm ∧ r.Wrote s [p, pm.tree] s' := by
  obtain ⟨pm, hpm, h⟩ := Checks.bind_eq_ok.mp h
  obtain ⟨s₁, hs₁, h⟩ := Checks.bind_eq_ok.mp h
  exact ⟨pm, reading_ok.mp hpm, (fault_ok hs₁).trans (fault_ok h)⟩

/-- The later parents and their trees. -/
theorem faultRest_ok {ps : List Oid} (h : ps.foldlM (r.faultParent d) s = .ok s') :
    ∃ oids, r.Wrote s oids s' ∧ oids.length = 2 * ps.length ∧ ∀ oid, oid ∈ oids ↔
      oid ∈ ps ∨ ∃ p ∈ ps, ∃ pm, r.commit p = .ok pm ∧ oid = pm.tree := by
  induction ps generalizing s with
  | nil =>
    cases h
    exact ⟨[], .refl r _, rfl, by simp⟩
  | cons p ps ih =>
    rw [List.foldlM_cons, Checks.bind_eq_ok] at h
    obtain ⟨s₁, hs₁, hrest⟩ := h
    obtain ⟨pm, hpm, hwrote⟩ := faultParent_ok hs₁
    obtain ⟨oids, hwrotes, hlength, hmem⟩ := ih hrest
    refine ⟨_, hwrote.trans hwrotes, ?_, fun oid => ?_⟩
    · simp only [List.length_append, List.length_cons, List.length_nil]
      omega
    · rw [List.mem_append, hmem]
      simp only [List.mem_cons, List.not_mem_nil, or_false, exists_eq_or_imp, hpm, Except.ok.injEq,
        exists_eq_left']
      grind

theorem faultParents_ok {c : CommitMeta} {level : List TreePair}
    (h : r.faultParents d c s = .ok (s', level)) :
    level = [(below (r.oldRoot c), some c.tree)] ∧
      ∃ oids, r.Wrote s oids s' ∧ oids.length ≤ 2 * c.parents.length ∧ ∀ oid,
        (oid ∈ oids ∨ below (r.oldRoot c) = some oid) ↔ oid ∈ c.parents ∨
          ∃ p ∈ c.parents, ∃ pm, r.commit p = .ok pm ∧ oid = pm.tree := by
  rw [faultParents] at h
  cases hparents : c.parents with
  | nil =>
    rw [hparents] at h
    cases h
    have hold : r.oldRoot c = none := by simp [oldRoot, hparents]
    exact ⟨by rw [hold]; rfl, [], .refl r _, by simp, by simp [hold]⟩
  | cons p rest =>
    rw [hparents] at h
    obtain ⟨pm, hpm, h⟩ := Checks.bind_eq_ok.mp h
    obtain ⟨s₁, hs₁, h⟩ := Checks.bind_eq_ok.mp h
    obtain ⟨s₂, hs₂, h⟩ := Checks.bind_eq_ok.mp h
    have hcommit := reading_ok.mp hpm
    have hold : below (r.oldRoot c) = some pm.tree := by
      have : r.oldRoot c = some (rootEntry pm.tree) := by
        simp [oldRoot, hparents, hcommit, Except.toOption]
      rw [this, below_rootEntry]
    obtain ⟨oids, hwrote, hlength, hmem⟩ := faultRest_ok hs₂
    cases h
    refine ⟨by rw [hold], _, (fault_ok hs₁).trans hwrote, ?_, fun oid => ?_⟩
    · simp only [List.length_append, List.length_cons, List.length_nil]
      omega
    · rw [List.mem_append, hmem, hold]
      simp only [List.mem_cons, List.not_mem_nil, or_false, exists_eq_or_imp, hcommit,
        Except.ok.injEq, exists_eq_left', Option.some.injEq]
      grind

/-- The diff of a commit always ends. Where it does not fail, what the local store has more are the
commit, its parents and their trees, and of the trees and blobs exactly those on the paths on which
the commit and its first parent differ: those of both sides, but no blob that takes the place of a
gitlink of its id. All of it is as the packs have it, and no more than the cap allows. -/
theorem faultCommitDiff_spec (htrees : r.TreesOk) (d : Disk) (s : Faulted) (id : Oid) :
    r.faultCommitDiff d s id ≠ .error .outOfFuel ∧
      ∀ c s', r.faultCommitDiff d s id = .ok (c, s') → r.commit id = .ok c ∧
        (∀ oid, oid ∈ s'.oids ↔ oid ∈ s.oids ∨ oid = id ∨ oid ∈ c.parents ∨
          (∃ p ∈ c.parents, ∃ pm, r.commit p = .ok pm ∧ oid = pm.tree) ∨ oid = c.tree ∨
            ∃ path, path ≠ [] ∧ r.Needed (r.oldRoot c) (some (rootEntry c.tree)) path oid) ∧
        (∀ p ∈ s', p ∈ s ∨ r.get p.1 = .ok p.2) ∧ (∀ p ∈ s, p ∈ s') ∧
        s'.length ≤ s.length + 1 + 2 * c.parents.length + maxDiffObjects := by
  constructor
  · refine Checks.bind_ne_error reading_fuel fun c _ => ?_
    refine Checks.bind_ne_error fault_fuel fun s₁ _ => ?_
    refine Checks.bind_ne_error ?_ fun p hp => ?_
    · rw [faultParents]
      cases c.parents with
      | nil => simp
      | cons p rest =>
        refine Checks.bind_ne_error reading_fuel fun pm _ => ?_
        refine Checks.bind_ne_error fault_fuel fun s₂ _ => ?_
        refine Checks.bind_ne_error (Checks.foldlM_error fun _ _ => ?_) fun _ _ => by simp
        refine Checks.bind_ne_error reading_fuel fun _ _ => ?_
        exact Checks.bind_ne_error fault_fuel fun _ _ => fault_fuel
    · obtain ⟨s₂, level⟩ := p
      obtain ⟨hlevel, -⟩ := faultParents_ok hp
      refine Checks.bind_ne_error (diffLevels_fuel ?_ (Nat.zero_le _) (Nat.lt_succ_self _))
        fun s₃ _ => ?_
      · simp [hlevel]
      · cases d.refresh <;> simp
  · intro c s' h
    obtain ⟨c', hc, h⟩ := Checks.bind_eq_ok.mp h
    obtain ⟨s₁, hs₁, h⟩ := Checks.bind_eq_ok.mp h
    obtain ⟨⟨s₂, level⟩, hparents, h⟩ := Checks.bind_eq_ok.mp h
    obtain ⟨s₃, hlevels, h⟩ := Checks.bind_eq_ok.mp h
    have hdone : c' = c ∧ s₃ = s' := by
      cases hrefresh : d.refresh with
      | error e => simp [hrefresh] at h
      | ok u => simpa [hrefresh] using h
    obtain ⟨rfl, rfl⟩ := hdone
    obtain ⟨rfl, oids, hwrote, hlength, hmem⟩ := faultParents_ok hparents
    obtain ⟨touched, hwrotes, hcap, htouched⟩ := diffLevels_ok (Nat.zero_le _) hlevels
    have hall := ((fault_ok hs₁).trans hwrote).trans hwrotes
    refine ⟨reading_ok.mp hc, fun oid => ?_, fun p hp => ?_, hall.kept, ?_⟩
    · rw [hall.mem_iff, List.mem_append, List.mem_append, List.mem_singleton, htouched]
      simp only [List.mem_singleton, exists_eq_left]
      rw [← below_rootEntry c'.tree, touched_iff htrees, below_rootEntry]
      have hparent := hmem oid
      grind
    · exact (hall.only p hp).imp_right fun h => h.2
    · have hle := hall.length
      simp only [List.length_append, List.length_singleton] at hle
      omega

/-- A commit that changes the file `f` of its parent. -/
def changedFile : Packs where
  find oid :=
    if oid = "tip" then .ok (some ⟨.commit, [1]⟩)
    else if oid = "root" then .ok (some ⟨.commit, [0]⟩)
    else if oid = "new" then .ok (some ⟨.tree, [1]⟩)
    else if oid = "old" then .ok (some ⟨.tree, [0]⟩)
    else .ok (some ⟨.blob, []⟩)
  commitRef data :=
    .ok { tree := if data = [1] then "new" else "old", parents := if data = [1] then ["root"] else []
          author := .ok ⟨"", "", none⟩, committer := .ok ⟨"", "", none⟩
          summary := "", body := none }
  treeRefs data := [.ok ⟨[102], if data = [1] then "after" else "before", 0o100644⟩]

theorem changedFile_treesOk : changedFile.TreesOk := by
  intro t es h
  obtain ⟨o, -, h⟩ := Checks.bind_eq_ok.mp h
  split_ifs at h
  cases h
  refine ⟨List.pairwise_singleton _ _, List.nodup_singleton _, fun e he => ?_⟩
  obtain rfl := List.mem_singleton.mp he
  have hname : slash ∉ ([102] : Name) := by decide
  exact hname

theorem faultCommitDiff_spec_changedFile :
    ∃ c s', changedFile.faultCommitDiff ⟨fun _ => .ok (), .ok ()⟩ [] "tip" = .ok (c, s') ∧
      s'.oids = ["before", "after", "old", "new", "root", "tip"] ∧
      (changedFile.Needed (changedFile.oldRoot c) (some (rootEntry c.tree)) [[102]] "after" →
        "after" ∈ s'.oids) := by
  have hrun : (changedFile.faultCommitDiff ⟨fun _ => .ok (), .ok ()⟩ [] "tip").toOption.map
      (fun p => p.2.oids) = some ["before", "after", "old", "new", "root", "tip"] := by
    decide +kernel
  obtain ⟨⟨c, s'⟩, hok, hoids⟩ := Option.map_eq_some_iff.mp hrun
  have hrun := Checks.toOption_eq_some.mp hok
  obtain ⟨-, hdone⟩ := faultCommitDiff_spec changedFile_treesOk ⟨fun _ => .ok (), .ok ()⟩ [] "tip"
  obtain ⟨-, hmem, -⟩ := hdone c s' hrun
  refine ⟨c, s', hrun, hoids, fun hneeded => (hmem _).mpr ?_⟩
  exact Or.inr (Or.inr (Or.inr (Or.inr (Or.inr ⟨[[102]], by simp, hneeded⟩))))

end Request

end Packs

end Walgit.Web
