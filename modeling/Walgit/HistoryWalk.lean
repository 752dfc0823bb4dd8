import Mathlib.Data.Int.Order.Basic
import Walgit.BestFirst
import Walgit.WebObjects

/-!
# History over remote packs

The commit walks of a repository whose packs are not here: newest commit first, and for a path
with the commits left out that have its entry as a parent has it. The pages of a history are read
off such walks.
-/
namespace Walgit.Web

open BestFirst (State)

/-- Budget for a history page. -/
def walkBudget : ℕ := 50000

/-- The path of a request, if it names one. -/
def pathFilter (text : String) : Option String := if text = "" then none else some text

theorem pathFilter_filter (text : String) :
    (pathFilter text).filter (· ≠ "") = pathFilter text := by
  rw [pathFilter]
  split_ifs with htext
  · rfl
  · simp [htext]

namespace Packs

section Code

variable (r : Packs)

/-- The first parent that has the path as it is. -/
def treesameParent (path : String) (mine : Option Oid) : List Oid → Except ApiError (Option Oid)
  | [] => .ok none
  | par :: rest => do
    let pm ← r.commit par
    let theirs ← r.pathOid pm.tree path
    if theirs = mine then .ok (some par) else treesameParent path mine rest

/-- Whether a commit is shown, and which parents are followed. -/
def simplify (path : Option String) (c : CommitMeta) : Except ApiError (Bool × List Oid) :=
  match path with
  | none => .ok (true, c.parents)
  | some p => do
    let mine ← r.pathOid c.tree p
    if c.parents = [] then .ok (mine.isSome, c.parents)
    else
      match ← r.treesameParent p mine c.parents with
      | some par => .ok (false, [par])
      | none => .ok (true, c.parents)

def pushParents (s : State ℤ Oid) : List Oid → Except ApiError (State ℤ Oid)
  | [] => .ok s
  | par :: rest =>
    if par ∈ s.seen then pushParents s rest
    else do
      let pm ← r.commit par
      pushParents ⟨⟨pm.commitTime, s.seq + 1, par⟩ :: s.heap, par :: s.seen, s.seq + 1⟩ rest

/-- The loop of the walk, with what is left of the budget. -/
def walkLoop (path : Option String) (want : ℕ) :
    ℕ → State ℤ Oid → List CommitMeta → Except ApiError (List CommitMeta)
  | 0, _, out => .ok out
  | budget + 1, s, out =>
    match BestFirst.pop s.heap with
    | none => .ok out
    | some (item, heap) => do
      let c ← r.commit item.vertex
      let (shown, follow) ← r.simplify path c
      let out := if shown then out ++ [c] else out
      if shown ∧ want ≤ out.length then .ok out
      else do
        let s ← r.pushParents ⟨heap, s.seen, s.seq⟩ follow
        walkLoop path want budget s out

def walkBounded (start : Oid) (path : Option String) (want budget : ℕ) :
    Except ApiError (List CommitMeta) := do
  let c ← r.commit start
  r.walkLoop path want budget ⟨[⟨c.commitTime, 0, start⟩], [start], 0⟩ []

def walk (start : Oid) (path : Option String) (want : ℕ) : Except ApiError (List CommitMeta) :=
  r.walkBounded start (path.filter (· ≠ "")) want walkBudget

/-- A page of the history, and whether there is more behind it. -/
def commits (start : Oid) (path : String) (skip n : ℕ) :
    Except ApiError (List CommitMeta × Bool) := do
  let all ← r.walk start (pathFilter path) (skip + n + 1)
  let cs := all.drop skip
  .ok (cs.take n, n < cs.length)

end Code

section Order

variable (r : Packs)

/-- The time a commit goes by. -/
def timeOf (c : Oid) : ℤ :=
  match r.commit c with
  | .ok m => m.commitTime
  | .error _ => 0

def simplified (path : Option String) (c : Oid) : Bool × List Oid :=
  match r.commit c >>= r.simplify path with
  | .ok p => p
  | .error _ => (false, [])

/-- The commits a walk shows, and the parents it follows. -/
def shows (path : Option String) (c : Oid) : Bool := (r.simplified path c).1

def follows (path : Option String) (c : Oid) : List Oid := (r.simplified path c).2

/-- A commit leads to the parents that are followed. -/
def Leads (path : Option String) : Oid → Oid → Prop :=
  Relation.ReflTransGen fun c par => par ∈ r.follows path c

/-- What a walk shows of the commits it visits within its budget. -/
def history (path : Option String) (start : Oid) : List Oid :=
  (BestFirst.order r.timeOf (r.follows path) walkBudget
    (BestFirst.start r.timeOf start)).filter (r.shows path)

end Order

section Touches

variable (r : Packs) (path : String)

def pathAt (c : Oid) : Except ApiError (Option Oid) := do
  let m ← r.commit c
  r.pathOid m.tree path

def Parent (c par : Oid) : Prop := ∃ m, r.commit c = .ok m ∧ par ∈ m.parents

/-- A parent with the path as its child has it. -/
def Unchanged (c par : Oid) : Prop :=
  r.Parent c par ∧ ∃ entry, r.pathAt path c = .ok entry ∧ r.pathAt path par = .ok entry

/-- A commit that has the path as none of its parents has it; a first one, that has it at all. -/
def Touches (c : Oid) : Prop :=
  ∃ m entry, r.commit c = .ok m ∧ r.pathAt path c = .ok entry ∧ (m.parents = [] → entry ≠ none) ∧
    ∀ par ∈ m.parents, ∃ theirs, r.pathAt path par = .ok theirs ∧ theirs ≠ entry

/-- A first commit without the path. -/
def Lacks (c : Oid) : Prop :=
  ∃ m, r.commit c = .ok m ∧ m.parents = [] ∧ r.pathAt path c = .ok none

variable {r} {path : String}

theorem pathAt_of {c : Oid} {m : CommitMeta} (h : r.commit c = .ok m) :
    r.pathAt path c = r.pathOid m.tree path := by
  rw [pathAt, h]
  rfl

/-- What is found is the path of a parent as it is; else no parent has it so. -/
theorem treesameParent_ok {mine : Option Oid} {pars : List Oid} {found : Option Oid}
    (h : r.treesameParent path mine pars = .ok found) :
    (∀ par, found = some par → par ∈ pars ∧ r.pathAt path par = .ok mine) ∧
      (found = none → ∀ par ∈ pars, ∃ theirs, r.pathAt path par = .ok theirs ∧ theirs ≠ mine) := by
  induction pars with
  | nil =>
    cases h
    simp
  | cons par rest ih =>
    obtain ⟨pm, hpm, h⟩ := Checks.bind_eq_ok.mp h
    obtain ⟨theirs, htheirs, h⟩ := Checks.bind_eq_ok.mp h
    rw [← pathAt_of hpm] at htheirs
    split_ifs at h with hsame
    · cases h
      refine ⟨fun par' hpar' => ?_, by simp⟩
      cases hpar'
      exact ⟨List.mem_cons_self, hsame ▸ htheirs⟩
    · obtain ⟨hsome, hnone⟩ := ih h
      refine ⟨fun par' hpar' => ?_, fun hfound => ?_⟩
      · exact ⟨List.mem_cons_of_mem _ (hsome par' hpar').1, (hsome par' hpar').2⟩
      · exact List.forall_mem_cons.mpr ⟨⟨theirs, htheirs, hsame⟩, hnone hfound⟩

/-- A commit is shown that touches the path; else one parent is followed that has it as it is,
unless there is none. -/
theorem simplify_path {c : Oid} {m : CommitMeta} {shown : Bool} {follow : List Oid}
    (hm : r.commit c = .ok m) (h : r.simplify (some path) m = .ok (shown, follow)) :
    shown = true ∧ r.Touches path c ∨
      shown = false ∧ (follow = [] ∧ r.Lacks path c ∨
        ∃ par, follow = [par] ∧ r.Unchanged path c par) := by
  obtain ⟨mine, hmine, h⟩ := Checks.bind_eq_ok.mp h
  rw [← pathAt_of hm] at hmine
  split_ifs at h with hroot
  · cases h
    cases mine with
    | none => exact Or.inr ⟨rfl, Or.inl ⟨hroot, m, hm, hroot, hmine⟩⟩
    | some oid => exact Or.inl ⟨rfl, m, some oid, hm, hmine, by simp, by simp [hroot]⟩
  · obtain ⟨found, hfound, h⟩ := Checks.bind_eq_ok.mp h
    obtain ⟨hsome, hnone⟩ := treesameParent_ok hfound
    cases found with
    | none =>
      cases h
      exact Or.inl ⟨rfl, m, mine, hm, hmine, fun hnil => absurd hnil hroot, hnone rfl⟩
    | some par =>
      cases h
      obtain ⟨hpar, htheirs⟩ := hsome par rfl
      exact Or.inr ⟨rfl, Or.inr ⟨par, rfl, ⟨m, hm, hpar⟩, mine, hmine, htheirs⟩⟩

/-- A commit that reads is shown and touches the path, or it is left out. -/
theorem simplified_path {c : Oid} {p : Bool × List Oid}
    (h : r.commit c >>= r.simplify (some path) = .ok p) :
    r.shows (some path) c = true ∧ r.Touches path c ∨
      r.shows (some path) c = false ∧ (r.Lacks path c ∨
        ∃ par, r.follows (some path) c = [par] ∧ r.Unchanged path c par) := by
  obtain ⟨shown, follow⟩ := p
  obtain ⟨m, hm, hsimplify⟩ := Checks.bind_eq_ok.mp h
  rw [shows, follows, simplified, h]
  exact (simplify_path hm hsimplify).imp_right fun hout => hout.imp_right fun hwhy =>
    hwhy.imp_left And.right

end Touches

section Walks

variable {r : Packs} {path : Option String}

theorem timeOf_eq {c : Oid} {m : CommitMeta} (h : r.commit c = .ok m) :
    r.timeOf c = m.commitTime := by
  rw [timeOf, h]

theorem simplified_eq {c : Oid} {m : CommitMeta} {p : Bool × List Oid} (h : r.commit c = .ok m)
    (hsimplify : r.simplify path m = .ok p) : r.simplified path c = p := by
  have hboth : r.commit c >>= r.simplify path = .ok p := Checks.bind_eq_ok.mpr ⟨m, h, hsimplify⟩
  rw [simplified, hboth]

theorem pushParents_ok {pars : List Oid} {s s' : State ℤ Oid} (h : r.pushParents s pars = .ok s') :
    s' = BestFirst.push r.timeOf s pars := by
  induction pars generalizing s with
  | nil =>
    cases h
    rfl
  | cons par rest ih =>
    rw [pushParents] at h
    rw [BestFirst.push]
    split_ifs at h ⊢ with hseen
    · exact ih h
    · obtain ⟨pm, hpm, hrest⟩ := Checks.bind_eq_ok.mp h
      rw [timeOf_eq hpm]
      exact ih hrest

/-- A walk that comes to its end shows the first of the commits that its order shows. -/
theorem walkLoop_ok {want budget : ℕ} {s : State ℤ Oid} {out ms : List CommitMeta}
    (h : r.walkLoop path want budget s out = .ok ms) (hout : out.length < max 1 want) :
    ∃ rows, ms = out ++ rows ∧ (∀ m ∈ rows, r.commit m.id = .ok m) ∧
      rows.map CommitMeta.id =
        ((BestFirst.order r.timeOf (r.follows path) budget s).filter (r.shows path)).take
          (max 1 want - out.length) := by
  induction budget generalizing s out with
  | zero =>
    cases h
    exact ⟨[], by simp, by simp, by simp [BestFirst.order]⟩
  | succ budget ih =>
    rw [walkLoop] at h
    rw [BestFirst.order]
    cases hpop : BestFirst.pop s.heap with
    | none =>
      rw [hpop] at h
      cases h
      exact ⟨[], by simp, by simp, by simp⟩
    | some p =>
      obtain ⟨item, heap⟩ := p
      rw [hpop] at h
      obtain ⟨c, hc, h⟩ := Checks.bind_eq_ok.mp h
      obtain ⟨⟨shown, follow⟩, hsimplify, h⟩ := Checks.bind_eq_ok.mp h
      have hsimplified := simplified_eq hc hsimplify
      have hid := commit_id hc
      have hshows : r.shows path item.vertex = shown := congrArg Prod.fst hsimplified
      have hfollows : r.follows path item.vertex = follow := congrArg Prod.snd hsimplified
      simp only [hfollows]
      cases shown with
      | false =>
        simp only [Bool.false_eq_true, false_and, if_false] at h
        obtain ⟨s', hs', h⟩ := Checks.bind_eq_ok.mp h
        rw [pushParents_ok hs'] at h
        obtain ⟨rows, hms, hrows, hids⟩ := ih h hout
        refine ⟨rows, hms, hrows, ?_⟩
        rw [List.filter_cons_of_neg (by simp [hshows])]
        exact hids
      | true =>
        simp only [true_and, if_true] at h
        rw [List.filter_cons_of_pos hshows]
        have hread : r.commit c.id = .ok c := by
          rw [hid]
          exact hc
        have hlength : (out ++ [c]).length = out.length + 1 := by simp
        split_ifs at h with henough
        · cases h
          have hone : max 1 want - out.length = 0 + 1 := by omega
          exact ⟨[c], rfl, by simpa using hread, by simp [hone, hid]⟩
        · obtain ⟨s', hs', h⟩ := Checks.bind_eq_ok.mp h
          rw [pushParents_ok hs'] at h
          obtain ⟨rows, hms, hrows, hids⟩ := ih h (by omega)
          have hleft : max 1 want - out.length = (max 1 want - (out ++ [c]).length) + 1 := by omega
          refine ⟨c :: rows, by simp [hms], ?_, ?_⟩
          · rw [List.forall_mem_cons]
            exact ⟨hread, hrows⟩
          · rw [List.map_cons, hids, hid, hleft, List.take_succ_cons]

/-- A page of the history shows a stretch of it. -/
theorem commits_ok {start : Oid} {text : String} {skip n : ℕ} {rows : List CommitMeta}
    {more : Bool} (h : r.commits start text skip n = .ok (rows, more)) :
    rows.map CommitMeta.id = ((r.history (pathFilter text) start).drop skip).take n ∧
      (more ↔ skip + n < (r.history (pathFilter text) start).length) ∧
      ∀ m ∈ rows, r.commit m.id = .ok m := by
  obtain ⟨all, hall, h⟩ := Checks.bind_eq_ok.mp h
  rw [walk, pathFilter_filter] at hall
  obtain ⟨c, hc, hloop⟩ := Checks.bind_eq_ok.mp hall
  obtain ⟨found, hfound, hread, hids⟩ := walkLoop_ok hloop (by simp)
  have hwant : max 1 (skip + n + 1) - ([] : List CommitMeta).length = skip + n + 1 := by
    simp
  rw [List.nil_append] at hfound
  rw [hwant, ← hfound, ← timeOf_eq hc] at hids
  have hhistory : all.map CommitMeta.id =
      (r.history (pathFilter text) start).take (skip + n + 1) := hids
  have hlength := congrArg List.length hhistory
  rw [List.length_map, List.length_take] at hlength
  cases h
  refine ⟨?_, ?_, fun m hm => ?_⟩
  · rw [List.map_take, List.map_drop, hhistory, List.drop_take, List.take_take]
    congr 1
    omega
  · simp only [decide_eq_true_eq, List.length_drop]
    omega
  · exact hread m (hfound ▸ List.mem_of_mem_drop (List.mem_of_mem_take hm))

theorem pushParents_total {pars : List Oid} (h : ∀ par ∈ pars, ∃ m, r.commit par = .ok m)
    (s : State ℤ Oid) : r.pushParents s pars = .ok (BestFirst.push r.timeOf s pars) := by
  have hok : ∃ s', r.pushParents s pars = .ok s' := by
    induction pars generalizing s with
    | nil => exact ⟨s, rfl⟩
    | cons par rest ih =>
      rw [List.forall_mem_cons] at h
      rw [pushParents]
      split_ifs with hseen
      · exact ih h.2 s
      · obtain ⟨m, hm⟩ := h.1
        rw [hm]
        exact ih h.2 _
  obtain ⟨s', hs'⟩ := hok
  rw [hs', pushParents_ok hs']

/-- A walk fails only where it cannot read what it reached. -/
theorem walkLoop_total {want budget : ℕ} {s : State ℤ Oid} {out : List CommitMeta} {P : Oid → Prop}
    (hread : ∀ c, P c → ∃ m p, r.commit c = .ok m ∧ r.simplify path m = .ok p ∧ ∀ par ∈ p.2, P par)
    (hs : ∀ v ∈ s.heap.map BestFirst.Item.vertex, P v) :
    ∃ ms, r.walkLoop path want budget s out = .ok ms := by
  induction budget generalizing s out with
  | zero => exact ⟨out, rfl⟩
  | succ budget ih =>
    rw [walkLoop]
    cases hpop : BestFirst.pop s.heap with
    | none => exact ⟨out, rfl⟩
    | some p =>
      obtain ⟨item, heap⟩ := p
      have hperm := fun v => ((BestFirst.pop_spec hpop).1.map BestFirst.Item.vertex).mem_iff (a := v)
      simp only [List.map_cons, List.mem_cons] at hperm
      obtain ⟨c, ⟨shown, follow⟩, hc, hsimplify, hfollow⟩ :=
        hread item.vertex (hs _ ((hperm _).mpr (Or.inl rfl)))
      have hparents : ∀ par ∈ follow, ∃ m, r.commit par = .ok m := fun par hpar => by
        obtain ⟨m, -, hm, -⟩ := hread par (hfollow par hpar)
        exact ⟨m, hm⟩
      have hpush := pushParents_total hparents ⟨heap, s.seen, s.seq⟩
      simp only [hc, hsimplify, hpush, Checks.ok_bind]
      by_cases henough : shown ∧ want ≤ (if shown then out ++ [c] else out).length
      · rw [if_pos henough]
        exact ⟨_, rfl⟩
      · rw [if_neg henough]
        refine ih fun v hv => ?_
        rcases (BestFirst.push_heap _).mp hv with hv | ⟨hv, -⟩
        · exact hs v ((hperm v).mpr (Or.inr hv))
        · exact hfollow v hv

end Walks

end Packs

end Walgit.Web
