import Walgit.MergeJoin
import Walgit.WebObjects

/-!
# Differing entries of two trees

Two trees walked side by side in git's order of their entries. What differs goes on as a pair of
trees, or is a blob of one side.
-/
namespace Walgit.Web

abbrev Name := List UInt8

def slash : UInt8 := 47

/-- What stands behind the common length of two names. -/
def byteAfter (name : Name) (n : ℕ) (tree : Bool) : Option UInt8 :=
  name[n]?.or (if tree then some slash else none)

/-- git's order of tree entries: names as if trees had a slash behind them. -/
def treeCmp (a : Name) (aTree : Bool) (b : Name) (bTree : Bool) : Ordering :=
  let n := min a.length b.length
  match compare (a.take n) (b.take n) with
  | .eq => compare (byteAfter a n aTree) (byteAfter b n bTree)
  | o => o

/-- Two trees to compare; none for a side without one. -/
abbrev TreePair := Option Oid × Option Oid

namespace TreeEntryRef

def cmp (x y : TreeEntryRef) : Ordering := treeCmp x.name x.isTree y.name y.isTree

def blobs (e : TreeEntryRef) : List Oid := if e.isBlobOrSymlink then [e.oid] else []

end TreeEntryRef

/-- What one step of the walk finds: trees to go on with, and blobs. -/
def diffStep : Option TreeEntryRef × Option TreeEntryRef → List TreePair × List Oid
  | (some x, some y) =>
    if x.oid = y.oid ∧ x.mode = y.mode then ([], [])
    else if x.isTree then
      if y.isTree then ([(some x.oid, some y.oid)], [])
      else ([(some x.oid, none)], y.blobs)
    else if y.isTree then ([(none, some y.oid)], x.blobs)
    else ([], x.blobs ++ if y.oid ≠ x.oid then y.blobs else [])
  | (some x, none) => if x.isTree then ([(some x.oid, none)], []) else ([], x.blobs)
  | (none, some y) => if y.isTree then ([(none, some y.oid)], []) else ([], y.blobs)
  | (none, none) => ([], [])

def mergeWalk (ea eb : List TreeEntryRef) : List TreePair × List Oid :=
  let steps := (MergeJoin.join TreeEntryRef.cmp ea eb).map diffStep
  (steps.flatMap Prod.fst, steps.flatMap Prod.snd)

section Order

def TreeEntryRef.key (e : TreeEntryRef) : Name := e.name ++ if e.isTree then [slash] else []

theorem compare_append_cons (x y : UInt8) (a b : Name) :
    compare (x :: a) (y :: b) = (compare x y).then (compare a b) := by
  simp only [List.compare_eq_compareLex, List.compareLex_cons_cons]

/-- For names without a slash, git's order is the order of the names with one behind a tree's. -/
theorem treeCmp_eq {a b : Name} (aTree bTree : Bool) (ha : slash ∉ a) (hb : slash ∉ b) :
    treeCmp a aTree b bTree =
      compare (a ++ if aTree then [slash] else []) (b ++ if bTree then [slash] else []) := by
  induction a generalizing b with
  | nil =>
    cases b with
    | nil => cases aTree <;> cases bTree <;> rfl
    | cons y b =>
      rw [List.mem_cons, not_or] at hb
      cases aTree with
      | false => cases bTree <;> rfl
      | true =>
        have hne : compare slash y ≠ .eq := fun h => hb.1 (Std.LawfulEqCmp.eq_of_compare h)
        have hleft : treeCmp [] true (y :: b) bTree = compare slash y := rfl
        have hright : compare ([] ++ [slash]) ((y :: b) ++ if bTree then [slash] else []) =
            (compare slash y).then (compare [] (b ++ if bTree then [slash] else [])) :=
          compare_append_cons _ _ _ _
        rw [hleft, if_pos rfl, hright]
        cases hcmp : compare slash y with
        | eq => exact absurd hcmp hne
        | lt => rfl
        | gt => rfl
  | cons x a ih =>
    rw [List.mem_cons, not_or] at ha
    cases b with
    | nil =>
      cases bTree with
      | false => cases aTree <;> rfl
      | true =>
        have hne : compare x slash ≠ .eq := fun h => ha.1 (Std.LawfulEqCmp.eq_of_compare h).symm
        have hleft : treeCmp (x :: a) aTree [] true = compare x slash := rfl
        have hright : compare ((x :: a) ++ if aTree then [slash] else []) ([] ++ [slash]) =
            (compare x slash).then (compare (a ++ if aTree then [slash] else []) []) :=
          compare_append_cons _ _ _ _
        rw [hleft, if_pos rfl, hright]
        cases hcmp : compare x slash with
        | eq => exact absurd hcmp hne
        | lt => rfl
        | gt => rfl
    | cons y b =>
      rw [List.mem_cons, not_or] at hb
      rw [List.cons_append, List.cons_append, compare_append_cons, ← ih ha.2 hb.2]
      simp only [treeCmp, List.length_cons, Nat.add_min_add_right, List.take_succ_cons,
        compare_append_cons, byteAfter, List.getElem?_cons_succ]
      cases compare x y <;> rfl

theorem key_inj {x y : TreeEntryRef} (hx : slash ∉ x.name) (hy : slash ∉ y.name)
    (h : x.key = y.key) : x.name = y.name ∧ x.isTree = y.isTree := by
  unfold TreeEntryRef.key at h
  cases hxt : x.isTree <;> cases hyt : y.isTree <;>
    simp only [hxt, hyt, Bool.false_eq_true, if_false, if_true, List.append_nil] at h
  · exact ⟨h, rfl⟩
  · rw [h] at hx
    exact absurd (by simp) hx
  · rw [← h] at hy
    exact absurd (by simp) hy
  · exact ⟨List.append_cancel_right h, rfl⟩

end Order

section Names

/-- What git asks of the entries of a tree. -/
structure TreeOk (es : List TreeEntryRef) : Prop where
  sorted : MergeJoin.Sorted TreeEntryRef.key es
  names : (es.map TreeEntryRef.name).Nodup
  noSlash : ∀ e ∈ es, slash ∉ e.name

def entryIn (es : List TreeEntryRef) (name : Name) : Option TreeEntryRef :=
  es.find? fun e => e.name = name

/-- The tree behind an entry. -/
def below (e : Option TreeEntryRef) : Option Oid := (e.filter TreeEntryRef.isTree).map TreeEntryRef.oid

def blobsOf (e : Option TreeEntryRef) : List Oid := (e.map TreeEntryRef.blobs).getD []

def content (e : Option TreeEntryRef) : Option (Oid × ℕ) := e.map fun e => (e.oid, e.mode)

@[simp] theorem below_none : below none = none := rfl

@[simp] theorem below_some (e : TreeEntryRef) :
    below (some e) = if e.isTree then some e.oid else none := by
  cases h : e.isTree <;> simp [below, h]

@[simp] theorem blobsOf_none : blobsOf none = [] := rfl

@[simp] theorem blobsOf_some (e : TreeEntryRef) : blobsOf (some e) = e.blobs := rfl

@[simp] theorem content_none : content none = none := rfl

@[simp] theorem content_some (e : TreeEntryRef) : content (some e) = some (e.oid, e.mode) := rfl

/-- A tree on one side and something else on the other, under one name. -/
def Clash (x y : Option TreeEntryRef) : Prop :=
  ∃ a b, x = some a ∧ y = some b ∧ a.isTree ≠ b.isTree

/-- An entry that is neither tree nor blob hides a blob of its id on the other side. -/
def Hides (x y : Option TreeEntryRef) : Prop :=
  ∃ a b, x = some a ∧ y = some b ∧ a.oid = b.oid ∧ a.isTree = false ∧ a.isBlobOrSymlink = false

theorem entryIn_eq {es : List TreeEntryRef} (h : (es.map TreeEntryRef.name).Nodup) {name : Name}
    {e : TreeEntryRef} : entryIn es name = some e ↔ e ∈ es ∧ e.name = name := by
  constructor
  · intro hfind
    exact ⟨List.mem_of_find?_eq_some hfind, by simpa using List.find?_some hfind⟩
  · rintro ⟨hmem, rfl⟩
    induction es with
    | nil => cases hmem
    | cons a es ih =>
      rw [List.map_cons, List.nodup_cons] at h
      rw [entryIn, List.find?_cons]
      rcases List.mem_cons.mp hmem with rfl | hmem
      · simp
      · have hne : a.name ≠ e.name := fun heq => h.1 (heq ▸ List.mem_map_of_mem hmem)
        simp only [hne, decide_false]
        exact ih h.2 hmem

variable {ea eb : List TreeEntryRef}

theorem Clash.symm {x y : Option TreeEntryRef} (h : Clash x y) : Clash y x := by
  obtain ⟨a, b, ha, hb, hne⟩ := h
  exact ⟨b, a, hb, ha, hne.symm⟩

theorem not_clash_none {x : Option TreeEntryRef} : ¬ Clash x none := by
  rintro ⟨_, _, -, hnone, -⟩
  cases hnone

/-- An entry without its like in another tree is alone under its name, or clashes there. -/
theorem unmatched_iff (ha : TreeOk ea) (hb : TreeOk eb) {x : TreeEntryRef} :
    (x ∈ ea ∧ ∀ y ∈ eb, y.key ≠ x.key) ↔ entryIn ea x.name = some x ∧
      (entryIn eb x.name = none ∨ Clash (some x) (entryIn eb x.name)) := by
  rw [entryIn_eq ha.names]
  constructor
  · rintro ⟨hx, hnone⟩
    refine ⟨⟨hx, rfl⟩, ?_⟩
    cases hy : entryIn eb x.name with
    | none => exact Or.inl rfl
    | some y =>
      obtain ⟨hmem, hname⟩ := (entryIn_eq hb.names).mp hy
      refine Or.inr ⟨x, y, rfl, rfl, fun htree => hnone y hmem ?_⟩
      rw [TreeEntryRef.key, TreeEntryRef.key, hname, htree]
  · rintro ⟨⟨hx, -⟩, hother⟩
    refine ⟨hx, fun y hy heq => ?_⟩
    obtain ⟨hname, htree⟩ := key_inj (hb.noSlash y hy) (ha.noSlash x hx) heq
    rw [← hname, (entryIn_eq hb.names).mpr ⟨hy, rfl⟩] at hother
    rcases hother with hnone | ⟨a, b, hxa, hyb, hne⟩
    · cases hnone
    · cases hxa
      cases hyb
      exact hne htree.symm

/-- A walk sees each name once with both sides, or twice where they clash. -/
theorem mem_join_names (ha : TreeOk ea) (hb : TreeOk eb)
    (p : Option TreeEntryRef × Option TreeEntryRef) :
    p ∈ MergeJoin.join TreeEntryRef.cmp ea eb ↔ ∃ name,
      p ≠ (none, none) ∧ ¬ Clash (entryIn ea name) (entryIn eb name) ∧
          p = (entryIn ea name, entryIn eb name) ∨
        Clash (entryIn ea name) (entryIn eb name) ∧
          (p = (entryIn ea name, none) ∨ p = (none, entryIn eb name)) := by
  have hcmp : ∀ x ∈ ea, ∀ y ∈ eb, x.cmp y = compare x.key y.key := fun x hx y hy =>
    treeCmp_eq _ _ (ha.noSlash x hx) (hb.noSlash y hy)
  rw [MergeJoin.mem_join hcmp ha.sorted hb.sorted]
  rcases p with ⟨_ | x, _ | y⟩
  · simp only [MergeJoin.Paired, ne_eq, not_true_eq_false, false_and, false_or, false_iff]
    rintro ⟨name, ⟨a, b, hx, hy, -⟩, h | h⟩
    · rw [hx] at h
      cases h
    · rw [hy] at h
      cases h
  · rw [MergeJoin.Paired, unmatched_iff hb ha]
    constructor
    · rintro ⟨hy, hnone | hclash⟩
      · exact ⟨y.name, Or.inl ⟨by simp, fun h => not_clash_none (hnone ▸ h.symm), by rw [hnone, hy]⟩⟩
      · exact ⟨y.name, Or.inr ⟨hy ▸ hclash.symm, Or.inr (by rw [hy])⟩⟩
    · rintro ⟨name, ⟨-, -, h⟩ | ⟨hclash, h⟩⟩
      · obtain ⟨hx, hy⟩ := Prod.mk.inj h
        obtain ⟨-, rfl⟩ := (entryIn_eq hb.names).mp hy.symm
        exact ⟨hy.symm, Or.inl hx.symm⟩
      · have hy : some y = entryIn eb name := by simpa using h
        obtain ⟨-, rfl⟩ := (entryIn_eq hb.names).mp hy.symm
        exact ⟨hy.symm, Or.inr (hy ▸ hclash.symm)⟩
  · rw [MergeJoin.Paired, unmatched_iff ha hb]
    constructor
    · rintro ⟨hx, hnone | hclash⟩
      · exact ⟨x.name, Or.inl ⟨by simp, fun h => not_clash_none (hnone ▸ h), by rw [hnone, hx]⟩⟩
      · exact ⟨x.name, Or.inr ⟨hx ▸ hclash, Or.inl (by rw [hx])⟩⟩
    · rintro ⟨name, ⟨-, -, h⟩ | ⟨hclash, h⟩⟩
      · obtain ⟨hx, hy⟩ := Prod.mk.inj h
        obtain ⟨-, rfl⟩ := (entryIn_eq ha.names).mp hx.symm
        exact ⟨hx.symm, Or.inl hy.symm⟩
      · have hx : some x = entryIn ea name := by simpa using h
        obtain ⟨-, rfl⟩ := (entryIn_eq ha.names).mp hx.symm
        exact ⟨hx.symm, Or.inr (hx ▸ hclash)⟩
  · constructor
    · rintro ⟨hx, hy, heq⟩
      obtain ⟨hname, htree⟩ := key_inj (ha.noSlash x hx) (hb.noSlash y hy) heq
      have hfindx := (entryIn_eq ha.names).mpr ⟨hx, hname⟩
      have hfindy := (entryIn_eq hb.names).mpr ⟨hy, rfl⟩
      refine ⟨y.name, Or.inl ⟨by simp, ?_, by rw [hfindx, hfindy]⟩⟩
      rintro ⟨a, b, ha, hb, hne⟩
      rw [hfindx] at ha
      rw [hfindy] at hb
      cases ha
      cases hb
      exact hne htree
    · rintro ⟨name, ⟨-, hclash, h⟩ | ⟨-, h | h⟩⟩
      · obtain ⟨hx, hy⟩ := Prod.mk.inj h
        obtain ⟨hxmem, hxname⟩ := (entryIn_eq ha.names).mp hx.symm
        obtain ⟨hymem, hyname⟩ := (entryIn_eq hb.names).mp hy.symm
        have htree : x.isTree = y.isTree := by
          by_contra hne
          exact hclash ⟨x, y, hx.symm, hy.symm, hne⟩
        refine ⟨hxmem, hymem, ?_⟩
        rw [TreeEntryRef.key, TreeEntryRef.key, hxname.trans hyname.symm, htree]
      · simp at h
      · simp at h

theorem blobs_of_tree {e : TreeEntryRef} (h : e.isTree) : e.blobs = [] := by
  have hbits : TreeEntryRef.kindBits e.mode = 0o040000 := by simpa [TreeEntryRef.isTree] using h
  simp [TreeEntryRef.blobs, TreeEntryRef.isBlobOrSymlink, hbits]

/-- What a step finds where the sides do not clash: the trees and the blobs of entries that
differ. -/
theorem diffStep_pair {x y : Option TreeEntryRef} (h : ¬ Clash x y) :
    (∀ q, q ∈ (diffStep (x, y)).1 ↔
        content x ≠ content y ∧ q = (below x, below y) ∧ q ≠ (none, none)) ∧
      ∀ oid, oid ∈ (diffStep (x, y)).2 ↔
        content x ≠ content y ∧ (oid ∈ blobsOf x ∨ oid ∈ blobsOf y ∧ ¬ Hides x y) := by
  cases x with
  | none =>
    cases y with
    | none => simp [diffStep]
    | some b =>
      have hhides : ¬ Hides none (some b) := by
        rintro ⟨_, _, hnone, -⟩
        cases hnone
      cases hb : b.isTree with
      | false => simp [diffStep, hb, hhides]
      | true =>
        have hblobs := blobs_of_tree hb
        simp only [diffStep, content_none, content_some, below_none, below_some, blobsOf_none,
          blobsOf_some, hb, hblobs]
        grind
  | some a =>
    cases y with
    | none =>
      cases ha : a.isTree with
      | false => simp [diffStep, ha]
      | true =>
        have hblobs := blobs_of_tree ha
        simp only [diffStep, content_none, content_some, below_none, below_some, blobsOf_none,
          blobsOf_some, ha, hblobs]
        grind
    | some b =>
      have htree : a.isTree = b.isTree := by
        by_contra hne
        exact h ⟨a, b, rfl, rfl, hne⟩
      by_cases hsame : a.oid = b.oid ∧ a.mode = b.mode
      · simp [diffStep, hsame]
      · have hcontent : content (some a) ≠ content (some b) := by
          simpa using hsame
        cases hb : b.isTree with
        | false =>
          have hhides : Hides (some a) (some b) ↔
              a.oid = b.oid ∧ a.isTree = false ∧ a.isBlobOrSymlink = false := by
            simp [Hides]
          simp only [diffStep, if_neg hsame, below_some, blobsOf_some, hhides, htree, hb,
            TreeEntryRef.blobs]
          grind
        | true =>
          have ha := htree.trans hb
          simp only [diffStep, if_neg hsame, below_some, blobsOf_some, ha, hb, blobs_of_tree ha,
            blobs_of_tree hb]
          grind

theorem content_of_clash {x y : Option TreeEntryRef} (h : Clash x y) : content x ≠ content y := by
  obtain ⟨a, b, rfl, rfl, hne⟩ := h
  intro heq
  obtain ⟨-, hmode⟩ : a.oid = b.oid ∧ a.mode = b.mode := by simpa using heq
  exact hne (by rw [TreeEntryRef.isTree, TreeEntryRef.isTree, hmode])

/-- Where the sides clash, one step finds the tree and one the other entry. -/
theorem diffStep_clash {x y : Option TreeEntryRef} (h : Clash x y) :
    (∀ q, q ∈ (diffStep (x, none)).1 ∨ q ∈ (diffStep (none, y)).1 ↔
        q = (below x, below y) ∧ q ≠ (none, none)) ∧
      ∀ oid, oid ∈ (diffStep (x, none)).2 ∨ oid ∈ (diffStep (none, y)).2 ↔
        oid ∈ blobsOf x ∨ oid ∈ blobsOf y ∧ ¬ Hides x y := by
  obtain ⟨a, b, rfl, rfl, hne⟩ := h
  have hhides : Hides (some a) (some b) ↔
      a.oid = b.oid ∧ a.isTree = false ∧ a.isBlobOrSymlink = false := by
    simp [Hides]
  cases ha : a.isTree with
  | false =>
    have hb : b.isTree = true := by simpa [ha] using hne
    simp only [diffStep, below_some, blobsOf_some, ha, hb, blobs_of_tree hb, hhides]
    grind
  | true =>
    have hb : b.isTree = false := by simpa [ha] using hne
    simp only [diffStep, below_some, blobsOf_some, ha, hb, blobs_of_tree ha, hhides]
    grind

/-- What some step of a walk has, it has at a name. -/
theorem exists_step (ha : TreeOk ea) (hb : TreeOk eb)
    {P : Option TreeEntryRef × Option TreeEntryRef → Prop} (hnone : ¬ P (none, none)) :
    (∃ p ∈ MergeJoin.join TreeEntryRef.cmp ea eb, P p) ↔ ∃ name,
      ¬ Clash (entryIn ea name) (entryIn eb name) ∧ P (entryIn ea name, entryIn eb name) ∨
        Clash (entryIn ea name) (entryIn eb name) ∧
          (P (entryIn ea name, none) ∨ P (none, entryIn eb name)) := by
  constructor
  · rintro ⟨p, hp, hP⟩
    obtain ⟨name, ⟨-, hclash, rfl⟩ | ⟨hclash, rfl | rfl⟩⟩ := (mem_join_names ha hb p).mp hp
    · exact ⟨name, Or.inl ⟨hclash, hP⟩⟩
    · exact ⟨name, Or.inr ⟨hclash, Or.inl hP⟩⟩
    · exact ⟨name, Or.inr ⟨hclash, Or.inr hP⟩⟩
  · rintro ⟨name, ⟨hclash, hP⟩ | ⟨hclash, hP | hP⟩⟩
    · refine ⟨_, (mem_join_names ha hb _).mpr ⟨name, Or.inl ⟨fun heq => ?_, hclash, rfl⟩⟩, hP⟩
      exact hnone (heq ▸ hP)
    · exact ⟨_, (mem_join_names ha hb _).mpr ⟨name, Or.inr ⟨hclash, Or.inl rfl⟩⟩, hP⟩
    · exact ⟨_, (mem_join_names ha hb _).mpr ⟨name, Or.inr ⟨hclash, Or.inr rfl⟩⟩, hP⟩

/-- The walk finds, name by name, the trees and the blobs of the entries that differ. -/
theorem mem_mergeWalk (ha : TreeOk ea) (hb : TreeOk eb) :
    (∀ q, q ∈ (mergeWalk ea eb).1 ↔ ∃ name, content (entryIn ea name) ≠ content (entryIn eb name) ∧
        q = (below (entryIn ea name), below (entryIn eb name)) ∧ q ≠ (none, none)) ∧
      ∀ oid, oid ∈ (mergeWalk ea eb).2 ↔ ∃ name,
        content (entryIn ea name) ≠ content (entryIn eb name) ∧
          (oid ∈ blobsOf (entryIn ea name) ∨
            oid ∈ blobsOf (entryIn eb name) ∧ ¬ Hides (entryIn ea name) (entryIn eb name)) := by
  constructor
  · intro q
    have hmem : q ∈ (mergeWalk ea eb).1 ↔
        ∃ p ∈ MergeJoin.join TreeEntryRef.cmp ea eb, q ∈ (diffStep p).1 := by
      simp only [mergeWalk, List.mem_flatMap, List.mem_map, exists_exists_and_eq_and]
    rw [hmem, exists_step ha hb (by simp [diffStep])]
    refine exists_congr fun name => ?_
    by_cases hclash : Clash (entryIn ea name) (entryIn eb name)
    · rw [(diffStep_clash hclash).1 q]
      simp [hclash, content_of_clash hclash]
    · rw [(diffStep_pair hclash).1 q]
      simp [hclash]
  · intro oid
    have hmem : oid ∈ (mergeWalk ea eb).2 ↔
        ∃ p ∈ MergeJoin.join TreeEntryRef.cmp ea eb, oid ∈ (diffStep p).2 := by
      simp only [mergeWalk, List.mem_flatMap, List.mem_map, exists_exists_and_eq_and]
    rw [hmem, exists_step ha hb (by simp [diffStep])]
    refine exists_congr fun name => ?_
    by_cases hclash : Clash (entryIn ea name) (entryIn eb name)
    · rw [(diffStep_clash hclash).2 oid]
      simp [hclash, content_of_clash hclash]
    · rw [(diffStep_pair hclash).2 oid]
      simp [hclash]

end Names

end Walgit.Web
