import Walgit.FetchComplete
import Walgit.FetchEnds

/-!
# Walks under a filter

A filter by depth opens a tree down to a depth that is counted from a root, but a tree that was
taken once is not entered again. A walk takes what the filter admits if it never comes to a tree
at a smaller depth than before.
-/
namespace Walgit.UploadPack

section Meaning

variable (db : Odb) (wants : List Oid)

/-- Objects are named under their own kind. -/
def Typed : Prop := ∀ x o y k o', db.Reached wants x → db.find x = some o → (y, k) ∈ o.names →
  db.find y = some o' → o'.kind = k

/-- A path leads to the object, from a want or from the tree of a commit, of the given length. -/
inductive Below : Oid → ℕ → Prop
  | want {x : Oid} (h : LedTo db wants x) : Below x 0
  | root {c root : Oid} {parents : List Oid} (hc : Sent db wants [] c)
      (hfind : db.find c = some (.commit root parents)) : Below root 0
  | entry {t : Oid} {depth : ℕ} {entries : List TreeEntry} {e : TreeEntry} (ht : Below t depth)
      (hfind : db.find t = some (.tree entries)) (he : e ∈ entries) (hmode : e.mode ≠ .commit) :
      Below e.oid (depth + 1)

/-- What a filter admits. The smallest depth is below a bound if some depth is. -/
def Admits (sizes : Oid → ℕ) (x : Oid) : PackFilter → GitObject → Prop
  | .blobNone, .blob => False
  | .blobLimit limit, .blob => sizes x ≤ limit
  | .tree max, .tree _ | .tree max, .blob => ∃ depth < max, Below db wants x depth
  | _, _ => True

/-- Where an object of its kind comes from. -/
def Placed (x : Oid) : GitObject → Prop
  | .commit _ _ => Sent db wants [] x
  | .tag _ => LedTo db wants x
  | .tree _ | .blob => ∃ depth, Below db wants x depth

variable {db wants}

theorem LedTo.placed {x : Oid} (h : LedTo db wants x) (o : GitObject) : Placed db wants x o := by
  cases o with
  | commit root parents =>
    obtain ⟨w, hw, hwx⟩ := h
    exact ⟨⟨w, hw, x, hwx, .refl⟩, by simp⟩
  | tag target => exact h
  | tree | blob => exact ⟨0, .want h⟩

theorem Sent.parent {c p : Oid} (h : Sent db wants [] c) (hp : p ∈ db.parentsOf c) :
    Sent db wants [] p := by
  obtain ⟨⟨w, hw, t, hwt, htc⟩, -⟩ := h
  exact ⟨⟨w, hw, t, hwt, htc.tail hp⟩, by simp⟩

theorem Below.reached {x : Oid} {depth : ℕ} (h : Below db wants x depth) : db.Reached wants x := by
  induction h with
  | want h => exact h.reached
  | root hc hfind => exact hc.reached.link ⟨_, hfind, List.mem_cons_self⟩
  | entry ht hfind he hmode ih => exact ih.link (.of_entry hfind he hmode)

/-- What is reachable is placed, by induction on the path. -/
theorem Typed.placed (h : Typed db wants) {x : Oid} (hx : db.Reached wants x) {o : GitObject}
    (ho : db.find x = some o) : Placed db wants x o := by
  obtain ⟨w, hw, hwx⟩ := hx
  induction hwx generalizing o with
  | refl => exact LedTo.placed ⟨w, hw, .refl⟩ o
  | @tail y z hwy hlink ih =>
    obtain ⟨o', ho', hz⟩ := hlink
    have hy : db.Reached wants y := ⟨w, hw, hwy⟩
    have hplaced := ih ho'
    cases o' with
    | commit root parents =>
      rcases List.mem_cons.mp hz with rfl | hp
      · have hkind := h y _ z .tree o hy ho' List.mem_cons_self ho
        cases o with
        | tree entries => exact ⟨0, .root hplaced ho'⟩
        | commit | tag | blob => cases hkind
      · have hkind := h y _ z .commit o hy ho'
          (List.mem_cons_of_mem _ (List.mem_map_of_mem (f := fun p => (p, Kind.commit)) hp)) ho
        cases o with
        | commit root' parents' =>
          exact hplaced.parent (Odb.mem_parentsOf.mpr ⟨root, parents, ho', hp⟩)
        | tree | tag | blob => cases hkind
    | tree entries =>
      obtain ⟨e, he, rfl⟩ := List.mem_map.mp hz
      obtain ⟨he, hmode⟩ := List.mem_filter.mp he
      rw [decide_eq_true_eq] at hmode
      have hkind := h y _ e.oid e.mode.kind o hy ho'
        (List.mem_map_of_mem (f := fun e => (e.oid, e.mode.kind)) he) ho
      obtain ⟨depth, hdepth⟩ := hplaced
      have hbelow := Below.entry hdepth ho' he hmode
      cases o with
      | tree | blob => exact ⟨depth + 1, hbelow⟩
      | commit | tag =>
        cases hm : e.mode <;> simp [hm, EntryMode.kind, GitObject.kind] at hkind hmode
    | tag target =>
      obtain rfl := List.mem_singleton.mp hz
      obtain ⟨w', hw', htag⟩ := hplaced
      exact LedTo.placed ⟨w', hw', htag.tail ho'⟩ o
    | blob => cases hz

end Meaning

section Meetings

variable (loc : Odb) (filter : PackFilter)

/-- The walk comes to a tree. A wanted tree is walked even if it was taken before. -/
structure Meeting where
  tree : Oid
  depth : ℕ
  wanted : Bool := false
  deriving DecidableEq, Repr

/-- The subtree that an entry names and what is met below it. -/
def entryMeetings (below : Oid → List Meeting) (depth : ℕ) (e : TreeEntry) : List Meeting :=
  if e.mode = .tree then
    ⟨e.oid, depth + 1, false⟩ :: if skipsTree filter depth then [] else below e.oid
  else []

/-- What a walk comes to below a tree if nothing was taken before. -/
def meetings : ℕ → Oid → ℕ → List Meeting
  | 0, _, _ => []
  | fuel + 1, t, depth =>
    ((treeEntries loc t).getD []).flatMap
      (entryMeetings filter (fun id => meetings fuel id (depth + 1)) depth)

/-- No tree is met again at a smaller depth than before. -/
def Steady (l : List Meeting) : Prop :=
  ∀ met m rest, l = met ++ m :: rest → m.wanted = false → (∃ m' ∈ met, m'.tree = m.tree) →
    ∃ m' ∈ met, m'.tree = m.tree ∧ m'.depth ≤ m.depth

theorem steady_of_nodup {l : List Meeting} (h : (l.map Meeting.tree).Nodup) : Steady l := by
  rintro met m rest rfl _ ⟨m', hm', htree⟩
  rw [List.map_append, List.map_cons] at h
  have hnew := List.disjoint_of_nodup_append h (List.mem_map_of_mem hm')
  exact absurd (htree ▸ List.mem_cons_self) hnew

end Meetings

section Opened

variable (db loc : Odb) (sizes : Oid → ℕ) (filter : PackFilter) (set : List Oid)

/-- What the filter admits below the tree, down to a number of levels, was taken. -/
def OpenTo : ℕ → Oid → Prop
  | 0, t => t ∈ set
  | n + 1, t => t ∈ set ∧ ∀ entries, db.find t = some (.tree entries) → ∀ e ∈ entries,
    (e.mode = .tree → OpenTo n e.oid) ∧
      (e.mode = .blob → skipsBlob loc sizes filter e.oid = false → e.oid ∈ set)

/-- The tree was taken with all that a walk that meets it at the depth takes. -/
def Opened (depth : ℕ) (t : Oid) : Prop :=
  ∀ n, (∀ max, filter = .tree max → depth + n ≤ max + 1) → OpenTo db loc sizes filter set n t

variable {db loc sizes filter set} {set' : List Oid} {t : Oid} {depth : ℕ}

theorem OpenTo.mem {n : ℕ} (h : OpenTo db loc sizes filter set n t) : t ∈ set := by
  cases n with
  | zero => exact h
  | succ n => exact h.1

theorem OpenTo.mono {n : ℕ} (h : OpenTo db loc sizes filter set n t) (hsub : set ⊆ set') :
    OpenTo db loc sizes filter set' n t := by
  induction n generalizing t with
  | zero => exact hsub h
  | succ n ih =>
    refine ⟨hsub h.1, fun entries hfind e he => ?_⟩
    obtain ⟨htree, hblob⟩ := h.2 entries hfind e he
    exact ⟨fun hmode => ih (htree hmode), fun hmode hskip => hsub (hblob hmode hskip)⟩

theorem Opened.mono (h : Opened db loc sizes filter set depth t) (hsub : set ⊆ set') :
    Opened db loc sizes filter set' depth t :=
  fun n hn => (h n hn).mono hsub

theorem Opened.deeper {depth' : ℕ} (h : Opened db loc sizes filter set depth t)
    (hle : ∀ max, filter = .tree max → depth ≤ depth') :
    Opened db loc sizes filter set depth' t := by
  refine fun n hn => h n fun max hmax => ?_
  have := hle max hmax
  have := hn max hmax
  omega

theorem Opened.of_entries (hmem : t ∈ set)
    (h : ∀ entries, db.find t = some (.tree entries) → ∀ e ∈ entries,
      (e.mode = .tree → Opened db loc sizes filter set (depth + 1) e.oid) ∧
        (e.mode = .blob → skipsBlob loc sizes filter e.oid = false → e.oid ∈ set)) :
    Opened db loc sizes filter set depth t := by
  intro n hn
  cases n with
  | zero => exact hmem
  | succ n =>
    refine ⟨hmem, fun entries hfind e he => ?_⟩
    obtain ⟨htree, hblob⟩ := h entries hfind e he
    refine ⟨fun hmode => htree hmode n fun max hmax => ?_, hblob⟩
    have := hn max hmax
    omega

theorem Opened.of_absent (hmem : t ∈ set) (hfind : db.find t = none) :
    Opened db loc sizes filter set depth t :=
  .of_entries hmem fun entries htree => by simp [hfind] at htree

/-- Where the filter opens nothing, to be taken is enough. -/
theorem Opened.of_skips (hmem : t ∈ set) (hskips : skipsTree filter depth = true) :
    Opened db loc sizes filter set (depth + 1) t := by
  intro n hn
  cases n with
  | zero => exact hmem
  | succ n =>
    cases filter with
    | tree max =>
      simp only [skipsTree, decide_eq_true_eq] at hskips
      have := hn max rfl
      omega
    | none | blobNone | blobLimit => cases hskips

theorem Opened.entry (h : Opened db loc sizes filter set depth t) {entries : List TreeEntry}
    {e : TreeEntry} (hfind : db.find t = some (.tree entries)) (he : e ∈ entries)
    (hmode : e.mode = .tree) : Opened db loc sizes filter set (depth + 1) e.oid := by
  intro n hn
  refine ((h (n + 1) fun max hmax => ?_).2 entries hfind e he).1 hmode
  have := hn max hmax
  omega

/-- A tree that was opened has what a walk would come to below it. -/
theorem Opened.below (hwithin : loc.Within db) {fuel : ℕ}
    (h : Opened db loc sizes filter set depth t) :
    ∀ m ∈ meetings loc filter fuel t depth, Opened db loc sizes filter set m.depth m.tree := by
  induction fuel generalizing t depth with
  | zero => simp [meetings]
  | succ fuel ih =>
    intro m hm
    obtain ⟨e, he, hm⟩ := List.mem_flatMap.mp hm
    cases hentries : treeEntries loc t with
    | none => simp [hentries] at he
    | some entries =>
      rw [hentries, Option.getD_some] at he
      unfold entryMeetings at hm
      split_ifs at hm with hmode hskips
      · have hsub := h.entry (hwithin t _ (find_of_mem_treeEntries hentries he)) he hmode
        rcases List.mem_cons.mp hm with rfl | hm
        · exact hsub
        · cases hm
      · have hsub := h.entry (hwithin t _ (find_of_mem_treeEntries hentries he)) he hmode
        rcases List.mem_cons.mp hm with rfl | hm
        · exact hsub
        · exact ih hsub m hm
      · cases hm

end Opened

section Walks

variable (db loc : Odb) (sizes : Oid → ℕ) (filter : PackFilter)

/-- What was done for an object that is in the set. -/
def Accounted (met : List Meeting) (set : List Oid) (x : Oid) : GitObject → Prop
  | .commit root _ => Opened db loc sizes filter set 0 root
  | .tree _ => ∃ m ∈ met, m.tree = x
  | .tag _ | .blob => True

/-- The state of a walk that has come to some trees and is still inside others. -/
structure Underway (met : List Meeting) (inside : List Oid) (set : List Oid) : Prop where
  opened : ∀ m ∈ met, m.tree ∈ inside ∨ Opened db loc sizes filter set m.depth m.tree
  accounted : ∀ x ∈ set, x ∈ inside ∨
    ∀ o, db.find x = some o → Accounted db loc sizes filter met set x o

/-- The set grew by a walk that came to some trees. -/
structure Walked (l : List Meeting) (set set' : List Oid) : Prop where
  subset : set ⊆ set'
  opened : ∀ m ∈ l, Opened db loc sizes filter set' m.depth m.tree
  accounted : ∀ x ∈ set', x ∈ set ∨
    ∀ o, db.find x = some o → Accounted db loc sizes filter l set' x o

variable {db loc sizes filter} {met l l' : List Meeting} {inside set set' set'' : List Oid}
variable {x : Oid}

theorem Accounted.mono {o : GitObject} (h : Accounted db loc sizes filter l set x o)
    (hl : l ⊆ l') (hsub : set ⊆ set') : Accounted db loc sizes filter l' set' x o := by
  cases o with
  | commit root parents => exact Opened.mono h hsub
  | tree entries =>
    obtain ⟨m, hm, htree⟩ := h
    exact ⟨m, hl hm, htree⟩
  | tag | blob => trivial

theorem Walked.refl (set : List Oid) : Walked db loc sizes filter [] set set :=
  ⟨List.Subset.refl set, by simp, fun _ hx => Or.inl hx⟩

theorem Walked.trans (h : Walked db loc sizes filter l set set')
    (h' : Walked db loc sizes filter l' set' set'') :
    Walked db loc sizes filter (l ++ l') set set'' := by
  refine ⟨List.Subset.trans h.subset h'.subset, fun m hm => ?_, fun x hx => ?_⟩
  · rcases List.mem_append.mp hm with hm | hm
    · exact (h.opened m hm).mono h'.subset
    · exact h'.opened m hm
  · rcases h'.accounted x hx with hold | hnew
    · exact (h.accounted x hold).imp_right fun haccounted o ho =>
        (haccounted o ho).mono (List.subset_append_left l l') h'.subset
    · exact Or.inr fun o ho =>
        (hnew o ho).mono (List.subset_append_right l l') (List.Subset.refl set'')

theorem Underway.walked (h : Underway db loc sizes filter met inside set)
    (hwalked : Walked db loc sizes filter l set set') :
    Underway db loc sizes filter (met ++ l) inside set' := by
  refine ⟨fun m hm => ?_, fun x hx => ?_⟩
  · rcases List.mem_append.mp hm with hm | hm
    · exact (h.opened m hm).imp_right fun hopened => hopened.mono hwalked.subset
    · exact Or.inr (hwalked.opened m hm)
  · rcases hwalked.accounted x hx with hold | hnew
    · exact (h.accounted x hold).imp_right fun haccounted o ho =>
        (haccounted o ho).mono (List.subset_append_left met l) hwalked.subset
    · exact Or.inr fun o ho =>
        (hnew o ho).mono (List.subset_append_right met l) (List.Subset.refl set')

/-- Besides one object, what was taken has nothing below it. -/
structure Takes (db : Odb) (x : Oid) (set set' : List Oid) : Prop where
  subset : set ⊆ set'
  new : ∀ y ∈ set', y ∈ set ∨ y = x ∨ ∀ o, db.find y = some o → o.kind = .tag ∨ o.kind = .blob

theorem Takes.insert (x : Oid) (set : List Oid) : Takes db x set (set.insert x) := by
  refine ⟨fun y hy => List.mem_insert_of_mem hy, fun y hy => ?_⟩
  rcases List.mem_insert_iff.mp hy with rfl | hy
  · exact Or.inr (Or.inl rfl)
  · exact Or.inl hy

theorem Accounted.of_kind {o : GitObject} (h : o.kind = .tag ∨ o.kind = .blob) :
    Accounted db loc sizes filter l set x o := by
  cases o with
  | tag | blob => trivial
  | commit | tree => rcases h with h | h <;> cases h

/-- An object is taken before what is below it. -/
theorem Underway.enter (h : Underway db loc sizes filter met inside set)
    (htakes : Takes db x set set') (hl : ∀ m ∈ l, m.tree = x) :
    Underway db loc sizes filter (met ++ l) (x :: inside) set' := by
  refine ⟨fun m hm => ?_, fun y hy => ?_⟩
  · rcases List.mem_append.mp hm with hm | hm
    · exact (h.opened m hm).imp (List.mem_cons_of_mem x) fun hopened => hopened.mono htakes.subset
    · exact Or.inl (hl m hm ▸ List.mem_cons_self)
  · rcases htakes.new y hy with hy | rfl | hplain
    · exact (h.accounted y hy).imp (List.mem_cons_of_mem x) fun haccounted o ho =>
        (haccounted o ho).mono (List.subset_append_left met l) htakes.subset
    · exact Or.inl List.mem_cons_self
    · exact Or.inr fun o ho => .of_kind (hplain o ho)

variable (l') in
/-- The object that was taken before the walk is accounted for after it. -/
theorem Walked.leave (h : Walked db loc sizes filter l set' set'') (htakes : Takes db x set set')
    (hopened : ∀ m ∈ l', Opened db loc sizes filter set'' m.depth m.tree)
    (hx : ∀ o, db.find x = some o → Accounted db loc sizes filter (l' ++ l) set'' x o) :
    Walked db loc sizes filter (l' ++ l) set set'' := by
  refine ⟨List.Subset.trans htakes.subset h.subset, fun m hm => ?_, fun y hy => ?_⟩
  · exact (List.mem_append.mp hm).elim (hopened m) (h.opened m)
  · rcases h.accounted y hy with hold | hnew
    · rcases htakes.new y hold with hold | rfl | hplain
      · exact Or.inl hold
      · exact Or.inr hx
      · exact Or.inr fun o ho => .of_kind (hplain o ho)
    · exact Or.inr fun o ho =>
        (hnew o ho).mono (List.subset_append_right l' l) (List.Subset.refl set'')

/-- Nothing has to be walked below what was taken. -/
theorem Walked.of_takes (h : Takes db x set set')
    (hx : ∀ o, db.find x = some o → o.kind = .tag ∨ o.kind = .blob) :
    Walked db loc sizes filter [] set set' :=
  (Walked.refl set').leave [] h (by simp) fun o ho => .of_kind (hx o ho)

/-- Steps of a fold that walk, walk together; `Q` holds before a step if it does after. -/
theorem Walked.of_fold {ε α σ : Type} {f : σ → α → Except ε σ} {π : σ → List Oid}
    {Q : σ → Prop} {meet : α → List Meeting} {whole : List Meeting} {as : List α}
    (hstep : ∀ a ∈ as, ∀ {met s s'}, f s a = .ok s' → Q s' → Q s ∧
      (Underway db loc sizes filter met inside (π s) → met ++ meet a <+: whole →
        Walked db loc sizes filter (meet a) (π s) (π s')))
    {s s' : σ} (h : as.foldlM f s = .ok s') (hquiet : Q s') : Q s ∧
      (Underway db loc sizes filter met inside (π s) → met ++ as.flatMap meet <+: whole →
        Walked db loc sizes filter (as.flatMap meet) (π s) (π s')) := by
  induction as generalizing met s with
  | nil =>
    cases h
    exact ⟨hquiet, fun _ _ => .refl _⟩
  | cons a as ih =>
    rw [List.foldlM_cons, Checks.bind_eq_ok] at h
    obtain ⟨s₁, hfirst, hrest⟩ := h
    have hquiet₁ := (@ih met (fun a' ha' => hstep a' (List.mem_cons_of_mem a ha')) s₁ hrest).1
    obtain ⟨hquiet₀, hwalk⟩ := @hstep a List.mem_cons_self met s s₁ hfirst hquiet₁
    refine ⟨hquiet₀, fun hunderway hwhole => ?_⟩
    rw [List.flatMap_cons, ← List.append_assoc] at hwhole
    have hwalked := hwalk hunderway ((List.prefix_append _ _).trans hwhole)
    rw [List.flatMap_cons]
    refine hwalked.trans ?_
    exact (@ih (met ++ meet a) (fun a' ha' => hstep a' (List.mem_cons_of_mem a ha')) s₁
      hrest).2 (hunderway.walked hwalked) hwhole

end Walks

section Trees

variable {db : ObjectGraph} {wants : List Oid} {loc : Odb} {sizes : Oid → ℕ} {filter : PackFilter}
variable {met whole : List Meeting} {inside set set' set'' : List Oid} {t : Oid} {depth : ℕ}

variable (db loc sizes filter whole t depth) in
/-- What the walk of a tree does that is in the set. -/
def WalkSpec (walk : List Oid → Except UploadError (List Oid)) (below : List Meeting) : Prop :=
  ∀ {met inside set set'}, Underway db.toOdb loc sizes filter met inside set → t ∈ inside →
    (∀ s ∈ inside, db.Reaches s t) → met ++ below <+: whole → t ∈ set → walk set = .ok set' →
    Walked db.toOdb loc sizes filter below set set' ∧
      Opened db.toOdb loc sizes filter set' depth t

variable (hwithin : loc.Within db.toOdb) (hkinds : Typed db.toOdb wants)
variable (hsteady : ∀ max, filter = .tree max → Steady whole)

include hsteady in
/-- A tree that was taken before is passed over. It was met before, and no deeper. -/
theorem walked_again (htree : ∀ o, db.find t = some o → o.kind = .tree)
    (hunderway : Underway db.toOdb loc sizes filter met inside set) (hinside : t ∉ inside)
    {below : List Meeting} (hwhole : met ++ ⟨t, depth, false⟩ :: below <+: whole)
    (hmem : t ∈ set) :
    Opened db.toOdb loc sizes filter set depth t := by
  have haccounted := (hunderway.accounted t hmem).resolve_left hinside
  cases hfind : db.find t with
  | none => exact .of_absent hmem hfind
  | some o =>
    have hkind := htree o hfind
    cases o with
    | commit | tag | blob => cases hkind
    | tree entries =>
      obtain ⟨m, hm, hmt⟩ := haccounted _ hfind
      have hshallow : ∃ m' ∈ met, m'.tree = t ∧ ∀ max, filter = .tree max → m'.depth ≤ depth := by
        by_cases hlimit : ∃ max, filter = .tree max
        · obtain ⟨max, hmax⟩ := hlimit
          obtain ⟨rest, hrest⟩ := hwhole
          rw [List.append_assoc, List.cons_append] at hrest
          obtain ⟨m', hm', htree', hle⟩ :=
            hsteady max hmax met _ _ hrest.symm rfl ⟨m, hm, hmt⟩
          exact ⟨m', hm', htree', fun _ _ => hle⟩
        · exact ⟨m, hm, hmt, fun max hmax => absurd ⟨max, hmax⟩ hlimit⟩
      obtain ⟨m', hm', rfl, hle⟩ := hshallow
      exact ((hunderway.opened m' hm').resolve_left hinside).deeper hle

/-- The walk of a tree that was not taken. -/
theorem walked_fresh {walk : List Oid → Except UploadError (List Oid)} {below : List Meeting}
    (hwalk : WalkSpec db loc sizes filter whole t depth walk below)
    (hunderway : Underway db.toOdb loc sizes filter met inside set)
    (hinside : ∀ s ∈ inside, db.Reaches s t) {wanted : Bool}
    (htree : ∀ o, db.find t = some o → o.kind = .tree)
    (hwhole : met ++ ⟨t, depth, wanted⟩ :: below <+: whole)
    (htakes : Takes db.toOdb t set set') (hmem : t ∈ set') (h : walk set' = .ok set'') :
    Walked db.toOdb loc sizes filter (⟨t, depth, wanted⟩ :: below) set set'' := by
  have henter := hunderway.enter htakes (l := [⟨t, depth, wanted⟩])
    (List.forall_mem_singleton.mpr rfl)
  rw [List.append_cons] at hwhole
  obtain ⟨hwalked, hopened⟩ := hwalk henter List.mem_cons_self
    (List.forall_mem_cons.mpr ⟨.refl, hinside⟩) hwhole hmem h
  refine hwalked.leave [⟨t, depth, wanted⟩] htakes
    (List.forall_mem_singleton.mpr hopened) fun o ho => ?_
  have hkind := htree o ho
  cases o with
  | tree entries => exact ⟨_, List.mem_cons_self, rfl⟩
  | commit | tag | blob => cases hkind

include hkinds hsteady in
theorem walkEntry_walked {walk : Oid → List Oid → Except UploadError (List Oid)}
    {below : Oid → List Meeting} {entries : List TreeEntry} {e : TreeEntry}
    (hwalk : ∀ {id}, db.Reached wants id →
      WalkSpec db loc sizes filter whole id (depth + 1) (walk id) (below id))
    (hbelow : ∀ {id set}, Opened db.toOdb loc sizes filter set (depth + 1) id →
      ∀ m ∈ below id, Opened db.toOdb loc sizes filter set m.depth m.tree)
    (ht : db.Reached wants t) (hfind : db.find t = some (.tree entries)) (he : e ∈ entries)
    (hunderway : Underway db.toOdb loc sizes filter met inside set)
    (hinside : ∀ s ∈ inside, db.Reaches s t)
    (hwhole : met ++ entryMeetings filter below depth e <+: whole)
    (h : walkEntry loc sizes filter walk depth set e = .ok set') :
    Walked db.toOdb loc sizes filter (entryMeetings filter below depth e) set set' := by
  have hkind : ∀ o, db.find e.oid = some o → o.kind = e.mode.kind := fun o ho =>
    hkinds t _ e.oid _ o ht hfind (List.mem_map_of_mem (f := fun e => (e.oid, e.mode.kind)) he) ho
  unfold walkEntry at h
  unfold entryMeetings at hwhole ⊢
  by_cases hmode : e.mode = .tree
  · have hlink : db.Link t e.oid := .of_entry hfind he (by simp [hmode])
    have htree : ∀ o, db.find e.oid = some o → o.kind = .tree := by
      rw [hmode] at hkind
      exact hkind
    -- A tree that the walk is inside would be below itself.
    have hout : e.oid ∉ inside := fun hmem =>
      not_cycle e.oid (Relation.TransGen.tail' (hinside e.oid hmem) hlink)
    have hreach : ∀ s ∈ inside, db.Reaches s e.oid := fun s hs => (hinside s hs).tail hlink
    rw [if_pos hmode] at h hwhole ⊢
    split_ifs at h hwhole ⊢ with hskips hmem
    · cases h
      have hstay : WalkSpec db loc sizes filter whole e.oid (depth + 1) .ok [] := by
        intro met inside set set' _ _ _ _ hmem h
        cases h
        exact ⟨.refl set, .of_skips hmem hskips⟩
      exact walked_fresh hstay hunderway hreach htree hwhole (.insert _ _) List.mem_insert_self rfl
    · cases h
      have hopened := walked_again hsteady htree hunderway hout hwhole hmem
      exact ⟨List.Subset.refl set, List.forall_mem_cons.mpr ⟨hopened, hbelow hopened⟩,
        fun _ hx => Or.inl hx⟩
    · exact walked_fresh (hwalk (ht.link hlink)) hunderway hreach htree hwhole (.insert _ _)
        List.mem_insert_self h
  · rw [if_neg hmode] at h ⊢
    split_ifs at h with hgitlink hskips
    · cases h
      exact .refl set
    · cases h
      exact .refl set
    · cases h
      refine .of_takes (.insert _ _) fun o ho => Or.inr ?_
      rw [hkind o ho]
      cases hm : e.mode with
      | blob => rfl
      | tree => exact absurd hm hmode
      | commit => exact absurd hm hgitlink

theorem walkEntry_blob {walk : Oid → List Oid → Except UploadError (List Oid)} {e : TreeEntry}
    (h : walkEntry loc sizes filter walk depth set e = .ok set') (hmode : e.mode = .blob)
    (hskips : skipsBlob loc sizes filter e.oid = false) : e.oid ∈ set' := by
  rw [walkEntry, if_neg (by simp [hmode]), if_neg (by simp [hmode]), if_neg (by simp [hskips])] at h
  cases h
  exact List.mem_insert_self

include hwithin hkinds hsteady in
/-- A walk opens its tree and every tree that it comes to. -/
theorem walkTree_walked {fuel : ℕ} (ht : db.Reached wants t) :
    WalkSpec db loc sizes filter whole t depth (walkTree loc sizes filter fuel t depth)
      (meetings loc filter fuel t depth) := by
  induction fuel generalizing t depth with
  | zero =>
    intro met inside set set' _ _ _ _ _ h
    cases h
  | succ fuel ih =>
    intro met inside set set' hunderway hself hinside hwhole hmem h
    rw [walkTree] at h
    split at h
    · rename_i entries hfind
      have hdb := hwithin t _ hfind
      have hlist : meetings loc filter (fuel + 1) t depth = entries.flatMap
          (entryMeetings filter (fun id => meetings loc filter fuel id (depth + 1)) depth) := by
        rw [meetings, treeEntries_tree hfind, Option.getD_some]
      rw [hlist] at hwhole ⊢
      have hwalked := (Walked.of_fold (π := id) (Q := fun _ => True)
        (fun e he _ _ _ hstep _ => ⟨trivial, fun hunderway hwhole =>
          walkEntry_walked hkinds hsteady (fun hid => ih hid)
            (fun hopened => hopened.below hwithin) ht hdb he hunderway hinside hwhole hstep⟩)
        h trivial).2 hunderway hwhole
      obtain ⟨-, hblobs⟩ := Checks.foldlM_each (R := fun set set' : List Oid => set ⊆ set')
        (P := fun e set => e.mode = .blob → skipsBlob loc sizes filter e.oid = false → e.oid ∈ set)
        List.Subset.refl (fun _ _ _ => List.Subset.trans)
        (by
          intro e set set' hblob hsub hmode hskips
          exact hsub (hblob hmode hskips))
        (fun e _ _ _ hstep => ⟨walkEntry_keeps (fun hd => walkTree_keeps hd) hstep,
          walkEntry_blob hstep⟩) h
      refine ⟨hwalked, .of_entries (hwalked.subset hmem) fun entries' hfind' e he => ?_⟩
      rw [hdb, Option.some.injEq, GitObject.tree.injEq] at hfind'
      subst hfind'
      refine ⟨fun hmode => hwalked.opened ⟨e.oid, depth + 1, false⟩ ?_, hblobs e he⟩
      refine List.mem_flatMap.mpr ⟨e, he, ?_⟩
      rw [entryMeetings, if_pos hmode]
      exact List.mem_cons_self
    · cases h

end Trees

end Walgit.UploadPack
