import Walgit.Checks
import Walgit.Objects

/-!
# Connectivity of a push

`check_connectivity` walks what the tips of a push reach and stops at what it has seen. One set
of seen objects serves tags, commits, trees and blobs alike, and an entry that a tree names as a
blob goes into it without being walked. So an object that is no blob is passed over wherever it
is met again once a tree has named it as one.
-/
namespace Walgit

inductive ConnectivityError where
  | missingObject (oid : Oid)
  | invalidInput (message : String)
  | gix (message : String)
  /-- The fuel of a tree walk ran out; `visitTrees_ends` excludes it. -/
  | exhausted
  deriving DecidableEq, Repr

/-- A ref of the repository, with the recorded peeled value of a tag. -/
structure RefTip where
  oid : Oid
  peeled : Oid := ""
  deriving DecidableEq, Repr

def RefTip.candidate (r : RefTip) : Oid := if r.peeled = "" then r.oid else r.peeled

namespace Connectivity

variable (db : Odb)

/-- The object at the end of a chain of tags; the tags are seen. -/
def peelTip : ℕ → Oid → List Oid → Except ConnectivityError (GitObject × Oid × List Oid)
  | 0, id, _ => .error (.invalidInput ("tag chain too deep at " ++ id))
  | n + 1, id, seen =>
    match db.find id with
    | none => .error (.missingObject id)
    | some (.tag target) => peelTip n target (id :: seen)
    | some o => .ok (o, id, seen)

/-- `ConnectivityVisitor` at one entry of a tree: the seen objects and the queue of trees. -/
def visitEntry (s : List Oid × List Oid) (e : TreeEntry) :
    Except ConnectivityError (List Oid × List Oid) :=
  match e.mode with
  | .commit => .ok s
  | .tree =>
    if e.oid ∈ s.1 then .ok s
    else if db.has e.oid then .ok (e.oid :: s.1, s.2 ++ [e.oid])
    else .error (.missingObject e.oid)
  | .blob =>
    if e.oid ∈ s.1 then .ok s
    else if db.has e.oid then .ok (e.oid :: s.1, s.2)
    else .error (.missingObject e.oid)

/-- The breadth-first walk of the trees in a queue. -/
def visitTrees : ℕ → List Oid → List Oid → Except ConnectivityError (List Oid)
  | _, seen, [] => .ok seen
  | 0, _, _ :: _ => .error .exhausted
  | n + 1, seen, id :: queue =>
    match db.find id with
    | some (.tree entries) => do
      let (seen, queue) ← entries.foldlM (visitEntry db) (seen, queue)
      visitTrees n seen queue
    | _ => .error (.gix "expected a tree")

/-- The walk of one tree that was not seen before. -/
def walkTree (seen : List Oid) (id : Oid) : Except ConnectivityError (List Oid) :=
  visitTrees db (db.objects.length + 1) (id :: seen) [id]

/-- A pushed tip: tags are peeled, trees walked, and commits kept for the commit walk. -/
def checkTip (s : List Oid × List Oid) (tip : Oid) :
    Except ConnectivityError (List Oid × List Oid) := do
  let (o, id, seen) ← peelTip db 64 tip s.1
  match o with
  | .commit _ _ => pure (seen, s.2 ++ [id])
  | .tree _ =>
    if id ∈ seen then pure (seen, s.2)
    else do
      let seen ← walkTree db seen id
      pure (seen, s.2)
  | _ => pure (seen, s.2)

/-- The commits that the existing refs name. -/
def hiddenTips (refs : List RefTip) : List Oid :=
  (refs.map RefTip.candidate).eraseDups.filterMap fun oid =>
    match db.find oid with
    | some (.commit _ _) => some oid
    | some (.tag _) =>
      match peelTip db 64 oid [] with
      | .ok (.commit _ _, id, _) => some id
      | _ => none
    | _ => none

def checkCommit (seen : List Oid) (cid : Oid) : Except ConnectivityError (List Oid) :=
  if cid ∈ seen then .ok seen
  else match db.find cid with
    | none => .error (.missingObject cid)
    | some (.commit root _) =>
      if root ∈ cid :: seen then .ok (cid :: seen)
      else if db.has root then walkTree db (cid :: seen) root
      else .error (.missingObject root)
    | some _ => .error (.gix "expected a commit")

def checkConnectivity (walk : RevWalk db) (refs : List RefTip) (tips : List Oid)
    (stopAtExistingRefs : Bool) : Except ConnectivityError Unit := do
  let (seen, commitTips) ← tips.eraseDups.foldlM (checkTip db) ([], [])
  if commitTips.isEmpty then pure ()
  else match walk.walk commitTips (if stopAtExistingRefs then hiddenTips db refs else []) with
    | .error e => throw (.gix e)
    | .ok commits => do
      let _ ← commits.foldlM (checkCommit db) seen
      pure ()

end Connectivity

namespace Odb

variable (db : Odb) (tips : List Oid)

/-- A tree among what the tips reach names the object as a blob. -/
def NamedAsBlob (x : Oid) : Prop :=
  ∃ tree entries, db.Reached tips tree ∧ db.find tree = some (.tree entries) ∧
    ∃ e ∈ entries, e.mode = .blob ∧ e.oid = x

/-- The object is reached without following a link of something that a tree names as a blob. -/
def ReachedClear (x : Oid) : Prop :=
  ∃ t ∈ tips, Relation.ReflTransGen (fun a b => db.Link a b ∧ ¬ db.NamedAsBlob tips a) t x

/-- What the tips lack shows without following what a tree names as a blob. -/
def Unmasked : Prop :=
  ∀ x, db.Reached tips x → ¬ db.has x → ∃ m, db.ReachedClear tips m ∧ ¬ db.has m

/-- What the refs name is complete, and a recorded peeled value is part of it. -/
def RefsComplete (refs : List RefTip) : Prop :=
  ∀ r ∈ refs, db.Reaches r.oid r.candidate ∧ ∀ x, db.Reaches r.oid x → db.has x

end Odb

namespace Connectivity

section Fuel

variable {db : Odb}

def ids (db : Odb) : List Oid := db.objects.map Prod.fst

theorem mem_ids {id : Oid} (h : db.has id) : id ∈ ids db := by
  obtain ⟨o, ho⟩ := Option.isSome_iff_exists.mp h
  obtain ⟨before, after, heq, -⟩ := List.lookup_eq_some_iff.mp ho
  rw [ids, heq]
  simp

/-- An entry takes as much from the unseen objects as it puts on the queue. -/
theorem visitEntry_measure {s s' : List Oid × List Oid} {e : TreeEntry}
    (h : visitEntry db s e = .ok s') :
    Worklist.fresh id (ids db) s'.1 + s'.2.length ≤
      Worklist.fresh id (ids db) s.1 + s.2.length := by
  unfold visitEntry at h
  split at h
  · cases h
    exact Nat.le_refl _
  · split_ifs at h with hseen hhas
    · cases h
      exact Nat.le_refl _
    · cases h
      have hlt : Worklist.fresh id (ids db) (e.oid :: s.1) < Worklist.fresh id (ids db) s.1 :=
        Worklist.fresh_cons_lt (mem_ids hhas) hseen
      simp only [List.length_append, List.length_singleton] at hlt ⊢
      omega
  · split_ifs at h with hseen hhas
    · cases h
      exact Nat.le_refl _
    · cases h
      have hlt : Worklist.fresh id (ids db) (e.oid :: s.1) < Worklist.fresh id (ids db) s.1 :=
        Worklist.fresh_cons_lt (mem_ids hhas) hseen
      dsimp only
      omega

theorem visitEntries_measure {entries : List TreeEntry} {s s' : List Oid × List Oid}
    (h : entries.foldlM (visitEntry db) s = .ok s') :
    Worklist.fresh id (ids db) s'.1 + s'.2.length ≤
      Worklist.fresh id (ids db) s.1 + s.2.length := by
  induction entries generalizing s with
  | nil =>
    cases h
    exact Nat.le_refl _
  | cons e entries ih =>
    rw [List.foldlM_cons, Checks.bind_eq_ok] at h
    obtain ⟨s₁, hs₁, hrest⟩ := h
    exact Nat.le_trans (ih hrest) (visitEntry_measure hs₁)

theorem visitEntry_error {s : List Oid × List Oid} {e : TreeEntry} :
    visitEntry db s e ≠ .error .exhausted := by
  intro h
  unfold visitEntry at h
  split at h
  · cases h
  · split_ifs at h
    cases h
  · split_ifs at h
    cases h

/-- A walk with fuel for every unseen object and the queue ends. -/
theorem visitTrees_ends {n : ℕ} {seen queue : List Oid}
    (h : Worklist.fresh id (ids db) seen + queue.length ≤ n) :
    visitTrees db n seen queue ≠ .error .exhausted := by
  induction n generalizing seen queue with
  | zero =>
    cases queue with
    | nil => exact fun h => by cases h
    | cons id queue => simp at h
  | succ n ih =>
    cases queue with
    | nil => exact fun h => by cases h
    | cons id queue =>
      rw [visitTrees]
      split
      · rename_i entries hfind
        cases hvisit : entries.foldlM (visitEntry db) (seen, queue) with
        | error e =>
          rintro heq
          cases heq
          exact Checks.foldlM_error (fun _ _ => visitEntry_error) hvisit
        | ok s =>
          have hle := visitEntries_measure hvisit
          rw [List.length_cons] at h
          dsimp only at hle
          exact ih (by omega)
      · exact fun h => by cases h

theorem walkTree_ends {seen : List Oid} {id : Oid} :
    walkTree db seen id ≠ .error .exhausted := by
  refine visitTrees_ends ?_
  have hle : Worklist.fresh (fun i => i) (ids db) (id :: seen) ≤ db.objects.length := by
    refine Nat.le_trans (List.length_filter_le _ _) (Nat.le_of_eq ?_)
    rw [ids, List.length_map]
  exact Nat.succ_le_succ hle

theorem peelTip_error {n : ℕ} {tip : Oid} {seen : List Oid} :
    peelTip db n tip seen ≠ .error .exhausted := by
  induction n generalizing tip seen with
  | zero => exact fun h => by cases h
  | succ n ih =>
    rw [peelTip]
    split
    · exact fun h => by cases h
    · exact ih
    · exact fun h => by cases h

theorem checkTip_error {s : List Oid × List Oid} {tip : Oid} :
    checkTip db s tip ≠ .error .exhausted := by
  unfold checkTip
  cases hpeel : peelTip db 64 tip s.1 with
  | error e =>
    rintro heq
    cases heq
    exact peelTip_error hpeel
  | ok r =>
    obtain ⟨o, id, seen⟩ := r
    cases o with
    | commit | tag | blob => exact fun h => by cases h
    | tree entries =>
      change (if id ∈ seen then _ else _) ≠ _
      split_ifs with hseen
      · exact fun h => by cases h
      · cases hwalk : walkTree db seen id with
        | error e =>
          rintro heq
          cases heq
          exact walkTree_ends hwalk
        | ok seen' => exact fun h => by cases h

theorem checkCommit_error {seen : List Oid} {cid : Oid} :
    checkCommit db seen cid ≠ .error .exhausted := by
  unfold checkCommit
  split_ifs
  · exact fun h => by cases h
  · split
    · exact fun h => by cases h
    · split_ifs
      · exact fun h => by cases h
      · exact walkTree_ends
      · exact fun h => by cases h
    · exact fun h => by cases h

/-- The fuel of the tree walks suffices. -/
theorem checkConnectivity_ends {walk : RevWalk db} {refs : List RefTip} {tips : List Oid}
    {stop : Bool} : checkConnectivity db walk refs tips stop ≠ .error .exhausted := by
  unfold checkConnectivity
  cases htips : tips.eraseDups.foldlM (checkTip db) ([], []) with
  | error e =>
    rintro heq
    cases heq
    exact Checks.foldlM_error (fun _ _ => checkTip_error) htips
  | ok s =>
    change (if s.2.isEmpty then _ else _) ≠ _
    split_ifs
    · exact fun h => by cases h
    all_goals
      cases walk.walk s.2 _ with
      | error e => exact fun h => by cases h
      | ok commits =>
        change (commits.foldlM (checkCommit db) s.1 >>= _) ≠ _
        cases hcommits : commits.foldlM (checkCommit db) s.1 with
        | error e =>
          rintro heq
          cases heq
          exact Checks.foldlM_error (fun _ _ => checkCommit_error) hcommits
        | ok seen => exact fun h => by cases h

end Fuel

section Soundness

variable {db : Odb} {tips : List Oid}

/-- What is known of the seen objects: they are there, and unless a tree names them as blobs or
they still wait in the queue, what they name was seen too or is promised. -/
structure Checked (db : Odb) (tips : List Oid) (promised : Oid → Prop) (seen queue : List Oid) :
    Prop where
  queued : queue ⊆ seen
  has : ∀ x ∈ seen, db.has x
  reached : ∀ x ∈ seen, db.Reached tips x
  walked : ∀ x ∈ seen,
    db.NamedAsBlob tips x ∨ x ∈ queue ∨ ∀ y, db.Link x y → y ∈ seen ∨ promised y

variable {promised promised' : Oid → Prop} {seen seen' queue queue' : List Oid}

theorem Checked.weaken (h : Checked db tips promised seen queue)
    (hle : ∀ y, promised y → y ∈ seen ∨ promised' y) : Checked db tips promised' seen queue where
  queued := h.queued
  has := h.has
  reached := h.reached
  walked x hx := (h.walked x hx).imp_right fun hcase => hcase.imp_right fun hlinks y hy =>
    (hlinks y hy).elim Or.inl (hle y)

/-- A present object that is met becomes a seen one. -/
theorem Checked.insert {x : Oid} (h : Checked db tips promised seen queue)
    (hqueue : queue ⊆ queue') (hqueued : queue' ⊆ x :: seen) (hhas : db.has x)
    (hreached : db.Reached tips x)
    (hwalked : db.NamedAsBlob tips x ∨ x ∈ queue' ∨
      ∀ y, db.Link x y → y ∈ x :: seen ∨ promised y) :
    Checked db tips promised (x :: seen) queue' where
  queued := hqueued
  has := List.forall_mem_cons.mpr ⟨hhas, h.has⟩
  reached := List.forall_mem_cons.mpr ⟨hreached, h.reached⟩
  walked := by
    refine List.forall_mem_cons.mpr ⟨hwalked, fun z hz => (h.walked z hz).imp_right fun hcase => ?_⟩
    exact hcase.imp (fun hz => hqueue hz) fun hlinks y hy =>
      (hlinks y hy).imp_left (List.mem_cons_of_mem x)

/-- What a walked object names was seen, so it leaves the queue. -/
theorem Checked.dequeue {x : Oid} (h : Checked db tips promised seen (x :: queue))
    (hlinks : ∀ y, db.Link x y → y ∈ seen ∨ promised y) :
    Checked db tips promised seen queue where
  queued := (List.cons_subset.mp h.queued).2
  has := h.has
  reached := h.reached
  walked z hz := by
    rcases h.walked z hz with hnamed | hqueue | hwalked
    · exact Or.inl hnamed
    · rcases List.mem_cons.mp hqueue with rfl | hqueue
      · exact Or.inr (Or.inr hlinks)
      · exact Or.inr (Or.inl hqueue)
    · exact Or.inr (Or.inr hwalked)

/-- An entry of a reached tree is seen after the visit. -/
theorem visitEntry_checked {s s' : List Oid × List Oid} {tree : Oid} {entries : List TreeEntry}
    {e : TreeEntry} (hfind : db.find tree = some (.tree entries)) (he : e ∈ entries)
    (hchecked : Checked db tips promised s.1 (tree :: s.2)) (h : visitEntry db s e = .ok s') :
    Checked db tips promised s'.1 (tree :: s'.2) ∧ s.1 ⊆ s'.1 ∧
      (e.mode ≠ .commit → e.oid ∈ s'.1) := by
  have htree := hchecked.reached tree (hchecked.queued List.mem_cons_self)
  have hreached : e.mode ≠ .commit → db.Reached tips e.oid := by
    intro hmode
    refine htree.link ⟨_, hfind, List.mem_map_of_mem (List.mem_filter.mpr ⟨he, ?_⟩)⟩
    simpa using hmode
  unfold visitEntry at h
  split at h
  · rename_i hmode
    cases h
    exact ⟨hchecked, fun _ hx => hx, fun hne => absurd hmode hne⟩
  · rename_i hmode
    split_ifs at h with hseen hhas
    · cases h
      exact ⟨hchecked, fun _ hx => hx, fun _ => hseen⟩
    · cases h
      refine ⟨?_, List.subset_cons_self _ _, fun _ => List.mem_cons_self⟩
      have hqueue : tree :: s.2 ⊆ tree :: (s.2 ++ [e.oid]) :=
        List.cons_subset_cons _ (List.subset_append_left _ _)
      refine hchecked.insert hqueue ?_ hhas (hreached (by simp [hmode])) (Or.inr (Or.inl (by simp)))
      intro x hx
      rw [← List.cons_append] at hx
      rcases List.mem_append.mp hx with hx | hx
      · exact List.mem_cons_of_mem _ (hchecked.queued hx)
      · exact List.mem_singleton.mp hx ▸ List.mem_cons_self
  · rename_i hmode
    split_ifs at h with hseen hhas
    · cases h
      exact ⟨hchecked, fun _ hx => hx, fun _ => hseen⟩
    · cases h
      refine ⟨?_, List.subset_cons_self _ _, fun _ => List.mem_cons_self⟩
      exact hchecked.insert (List.Subset.refl _)
        (fun x hx => List.mem_cons_of_mem _ (hchecked.queued hx)) hhas
        (hreached (by simp [hmode])) (Or.inl ⟨tree, entries, htree, hfind, e, he, hmode, rfl⟩)

theorem visitEntries_checked {tree : Oid} {entries rest : List TreeEntry}
    {s s' : List Oid × List Oid} (hfind : db.find tree = some (.tree entries))
    (hrest : rest ⊆ entries) (hchecked : Checked db tips promised s.1 (tree :: s.2))
    (h : rest.foldlM (visitEntry db) s = .ok s') :
    Checked db tips promised s'.1 (tree :: s'.2) ∧ s.1 ⊆ s'.1 ∧
      ∀ e ∈ rest, e.mode ≠ .commit → e.oid ∈ s'.1 := by
  induction rest generalizing s with
  | nil =>
    cases h
    exact ⟨hchecked, fun _ hx => hx, by simp⟩
  | cons e rest ih =>
    rw [List.cons_subset] at hrest
    rw [List.foldlM_cons, Checks.bind_eq_ok] at h
    obtain ⟨s₁, hs₁, h⟩ := h
    obtain ⟨hchecked₁, hsub₁, he⟩ := visitEntry_checked hfind hrest.1 hchecked hs₁
    obtain ⟨hchecked', hsub', hall⟩ := ih hrest.2 hchecked₁ h
    refine ⟨hchecked', fun x hx => hsub' (hsub₁ hx), ?_⟩
    rw [List.forall_mem_cons]
    exact ⟨fun hmode => hsub' (he hmode), hall⟩

/-- After a walk nothing waits in the queue. -/
theorem visitTrees_checked {n : ℕ} (hchecked : Checked db tips promised seen queue)
    (h : visitTrees db n seen queue = .ok seen') :
    Checked db tips promised seen' [] ∧ seen ⊆ seen' := by
  induction n generalizing seen queue with
  | zero =>
    cases queue with
    | nil =>
      cases h
      exact ⟨hchecked, fun _ hx => hx⟩
    | cons id queue => cases h
  | succ n ih =>
    cases queue with
    | nil =>
      cases h
      exact ⟨hchecked, fun _ hx => hx⟩
    | cons id queue =>
      rw [visitTrees] at h
      split at h
      · rename_i entries hfind
        rw [Checks.bind_eq_ok] at h
        obtain ⟨⟨seen₁, queue₁⟩, hvisit, h⟩ := h
        obtain ⟨hchecked₁, hsub₁, hall⟩ :=
          visitEntries_checked hfind (List.Subset.refl _) hchecked hvisit
        have hdequeued : Checked db tips promised seen₁ queue₁ := by
          refine hchecked₁.dequeue fun y hy => Or.inl ?_
          obtain ⟨o, ho, hmem⟩ := hy
          cases hfind.symm.trans ho
          obtain ⟨e, he, rfl⟩ := List.mem_map.mp hmem
          rw [List.mem_filter] at he
          exact hall e he.1 (by simpa using he.2)
        obtain ⟨hchecked', hsub'⟩ := ih hdequeued h
        exact ⟨hchecked', fun x hx => hsub' (hsub₁ hx)⟩
      · cases h

theorem walkTree_checked {id : Oid} (hchecked : Checked db tips promised seen [])
    (hhas : db.has id) (hreached : db.Reached tips id) (h : walkTree db seen id = .ok seen') :
    Checked db tips promised seen' [] ∧ id :: seen ⊆ seen' :=
  visitTrees_checked (hchecked.insert (List.nil_subset _) (by simp) hhas hreached
    (Or.inr (Or.inl List.mem_cons_self))) h

/-- Peeling sees the tags, and promises the object they lead to. -/
theorem peelTip_checked {n : ℕ} {tip id : Oid} {o : GitObject}
    (hchecked : Checked db tips promised seen []) (hreached : db.Reached tips tip)
    (h : peelTip db n tip seen = .ok (o, id, seen')) :
    db.find id = some o ∧ (∀ target, o ≠ .tag target) ∧ db.Reached tips id ∧ seen ⊆ seen' ∧
      (tip ∈ seen' ∨ tip = id) ∧ Checked db tips (fun y => promised y ∨ y = id) seen' [] := by
  induction n generalizing tip seen promised with
  | zero => cases h
  | succ n ih =>
    rw [peelTip] at h
    split at h
    · cases h
    · rename_i target hfind
      have hlink : ∀ y, db.Link tip y → y = target := by
        rintro y ⟨o, ho, hmem⟩
        cases hfind.symm.trans ho
        exact List.mem_singleton.mp hmem
      have htag : Checked db tips (fun y => promised y ∨ y = target) (tip :: seen) [] := by
        refine (hchecked.weaken fun y hy => Or.inr (Or.inl hy)).insert (List.nil_subset _)
          (List.nil_subset _) (by simp [Odb.has, hfind]) hreached ?_
        exact Or.inr (Or.inr fun y hy => Or.inr (Or.inr (hlink y hy)))
      obtain ⟨hid, hnotag, hreached', hsub, htarget, hchecked'⟩ :=
        ih htag (hreached.link ⟨_, hfind, List.mem_singleton.mpr rfl⟩) h
      refine ⟨hid, hnotag, hreached', fun x hx => hsub (List.mem_cons_of_mem _ hx),
        Or.inl (hsub List.mem_cons_self), hchecked'.weaken ?_⟩
      rintro y ((hy | rfl) | hy)
      · exact Or.inr (Or.inl hy)
      · exact htarget.imp_right Or.inr
      · exact Or.inr (Or.inr hy)
    · rename_i hnotag hfind
      cases h
      exact ⟨hfind, hnotag, hreached, fun _ hx => hx, Or.inr rfl,
        hchecked.weaken fun y hy => Or.inr (Or.inl hy)⟩

/-- What the rest of the check looks at: blobs have nothing to check, and commits are walked. -/
def Promised (db : Odb) (commits : List Oid) (y : Oid) : Prop :=
  db.find y = some .blob ∨ ∃ c ∈ commits, db.Ancestor c y

theorem Promised.mono {commits commits' : List Oid} (hsub : commits ⊆ commits') {y : Oid}
    (h : Promised db commits y) : Promised db commits' y :=
  h.imp_right fun ⟨c, hc, hy⟩ => ⟨c, hsub hc, hy⟩

theorem checkTip_checked {s s' : List Oid × List Oid} {tip : Oid}
    (hchecked : Checked db tips (Promised db s.2) s.1 [])
    (hcommits : ∀ c ∈ s.2, db.Reached tips c) (htip : db.Reached tips tip)
    (h : checkTip db s tip = .ok s') :
    Checked db tips (Promised db s'.2) s'.1 [] ∧ (∀ c ∈ s'.2, db.Reached tips c) ∧
      s.1 ⊆ s'.1 ∧ s.2 ⊆ s'.2 ∧ (tip ∈ s'.1 ∨ Promised db s'.2 tip) := by
  unfold checkTip at h
  rw [Checks.bind_eq_ok] at h
  obtain ⟨⟨o, id, seen⟩, hpeel, h⟩ := h
  obtain ⟨hfind, hnotag, hreached, hsub, hmet, hpeeled⟩ := peelTip_checked hchecked htip hpeel
  cases o with
  | commit root parents =>
    cases h
    have hid : Promised db (s.2 ++ [id]) id := Or.inr ⟨id, by simp, .refl⟩
    refine ⟨hpeeled.weaken ?_, ?_, hsub, List.subset_append_left _ _, ?_⟩
    · rintro y (hy | rfl)
      · exact Or.inr (hy.mono (List.subset_append_left _ _))
      · exact Or.inr hid
    · intro c hc
      rcases List.mem_append.mp hc with hc | hc
      · exact hcommits c hc
      · exact List.mem_singleton.mp hc ▸ hreached
    · rcases hmet with hseen | rfl
      · exact Or.inl hseen
      · exact Or.inr hid
  | tree entries =>
    dsimp only at h
    split_ifs at h with hseen
    · cases h
      refine ⟨hpeeled.weaken ?_, hcommits, hsub, List.Subset.refl _, ?_⟩
      · rintro y (hy | rfl)
        · exact Or.inr hy
        · exact Or.inl hseen
      · rcases hmet with htip | rfl
        · exact Or.inl htip
        · exact Or.inl hseen
    · rw [Checks.bind_eq_ok] at h
      obtain ⟨seen', hwalk, h⟩ := h
      cases h
      obtain ⟨hwalked, hsub'⟩ :=
        walkTree_checked hpeeled (by simp [Odb.has, hfind]) hreached hwalk
      have hid : id ∈ seen' := hsub' List.mem_cons_self
      have hseen' : seen ⊆ seen' := fun x hx => hsub' (List.mem_cons_of_mem _ hx)
      refine ⟨hwalked.weaken ?_, hcommits, fun x hx => hseen' (hsub hx), List.Subset.refl _, ?_⟩
      · rintro y (hy | rfl)
        · exact Or.inr hy
        · exact Or.inl hid
      · rcases hmet with htip | rfl
        · exact Or.inl (hseen' htip)
        · exact Or.inl hid
  | tag target => exact absurd rfl (hnotag target)
  | blob =>
    cases h
    refine ⟨hpeeled.weaken ?_, hcommits, hsub, List.Subset.refl _, ?_⟩
    · rintro y (hy | rfl)
      · exact Or.inr hy
      · exact Or.inr (Or.inl hfind)
    · rcases hmet with hseen | rfl
      · exact Or.inl hseen
      · exact Or.inr (Or.inl hfind)

theorem checkTips_checked {s s' : List Oid × List Oid} {pushed : List Oid}
    (hchecked : Checked db tips (Promised db s.2) s.1 [])
    (hcommits : ∀ c ∈ s.2, db.Reached tips c) (hpushed : ∀ t ∈ pushed, db.Reached tips t)
    (h : pushed.foldlM (checkTip db) s = .ok s') :
    Checked db tips (Promised db s'.2) s'.1 [] ∧ (∀ c ∈ s'.2, db.Reached tips c) ∧
      s.1 ⊆ s'.1 ∧ s.2 ⊆ s'.2 ∧ ∀ t ∈ pushed, t ∈ s'.1 ∨ Promised db s'.2 t := by
  induction pushed generalizing s with
  | nil =>
    cases h
    exact ⟨hchecked, hcommits, fun _ hx => hx, fun _ hx => hx, by simp⟩
  | cons t pushed ih =>
    rw [List.forall_mem_cons] at hpushed
    rw [List.foldlM_cons, Checks.bind_eq_ok] at h
    obtain ⟨s₁, hs₁, h⟩ := h
    obtain ⟨hchecked₁, hcommits₁, hseen₁, hsub₁, ht⟩ :=
      checkTip_checked hchecked hcommits hpushed.1 hs₁
    obtain ⟨hchecked', hcommits', hseen', hsub', hall⟩ := ih hchecked₁ hcommits₁ hpushed.2 h
    refine ⟨hchecked', hcommits', fun x hx => hseen' (hseen₁ hx), fun x hx => hsub' (hsub₁ hx), ?_⟩
    rw [List.forall_mem_cons]
    exact ⟨ht.imp (fun hx => hseen' hx) (Promised.mono hsub'), hall⟩

/-- A walked commit is seen; its parents are walked too or hidden. -/
theorem checkCommit_checked {commitTips : List Oid} {cid : Oid}
    (hchecked : Checked db tips (Promised db commitTips) seen [])
    (hreached : db.Reached tips cid) (hancestor : ∃ c ∈ commitTips, db.Ancestor c cid)
    (h : checkCommit db seen cid = .ok seen') :
    Checked db tips (Promised db commitTips) seen' [] ∧ cid :: seen ⊆ seen' := by
  unfold checkCommit at h
  split_ifs at h with hseen
  · cases h
    exact ⟨hchecked, List.cons_subset.mpr ⟨hseen, fun _ hx => hx⟩⟩
  · split at h
    · cases h
    · rename_i root parents hfind
      have hlinks : ∀ y, db.Link cid y → y = root ∨ Promised db commitTips y := by
        rintro y ⟨o, ho, hmem⟩
        cases hfind.symm.trans ho
        rcases List.mem_cons.mp hmem with rfl | hmem
        · exact Or.inl rfl
        · obtain ⟨c, hc, hanc⟩ := hancestor
          exact Or.inr (Or.inr ⟨c, hc, hanc.tail (Odb.mem_parentsOf.mpr ⟨root, parents, hfind, hmem⟩)⟩)
      have hroot : db.Reached tips root :=
        hreached.link ⟨_, hfind, List.mem_cons_self⟩
      have hcommit : Checked db tips (fun y => Promised db commitTips y ∨ y = root)
          (cid :: seen) [] := by
        refine (hchecked.weaken fun y hy => Or.inr (Or.inl hy)).insert (List.nil_subset _)
          (List.nil_subset _) (by simp [Odb.has, hfind]) hreached ?_
        exact Or.inr (Or.inr fun y hy => Or.inr (hlinks y hy).symm)
      split_ifs at h with hin hhas
      · cases h
        refine ⟨hcommit.weaken ?_, List.Subset.refl _⟩
        rintro y (hy | rfl)
        · exact Or.inr hy
        · exact Or.inl hin
      · obtain ⟨hwalked, hsub⟩ := walkTree_checked hcommit hhas hroot h
        rw [List.cons_subset] at hsub
        refine ⟨hwalked.weaken ?_, hsub.2⟩
        rintro y (hy | rfl)
        · exact Or.inr hy
        · exact Or.inl hsub.1
    · cases h

theorem checkCommits_checked {commitTips commits : List Oid}
    (hchecked : Checked db tips (Promised db commitTips) seen [])
    (hcommits : ∀ c ∈ commits, db.Reached tips c ∧ ∃ t ∈ commitTips, db.Ancestor t c)
    (h : commits.foldlM (checkCommit db) seen = .ok seen') :
    Checked db tips (Promised db commitTips) seen' [] ∧ seen ⊆ seen' ∧ commits ⊆ seen' := by
  induction commits generalizing seen with
  | nil =>
    cases h
    exact ⟨hchecked, fun _ hx => hx, List.nil_subset _⟩
  | cons c commits ih =>
    rw [List.forall_mem_cons] at hcommits
    rw [List.foldlM_cons, Checks.bind_eq_ok] at h
    obtain ⟨seen₁, hs₁, h⟩ := h
    obtain ⟨hchecked₁, hsub₁⟩ := checkCommit_checked hchecked hcommits.1.1 hcommits.1.2 hs₁
    obtain ⟨hchecked', hsub', hall⟩ := ih hchecked₁ hcommits.2 h
    rw [List.cons_subset] at hsub₁
    exact ⟨hchecked', fun x hx => hsub' (hsub₁.2 hx), List.cons_subset.mpr ⟨hsub' hsub₁.1, hall⟩⟩

theorem hiddenTips_reached {refs : List RefTip} (hrefs : db.RefsComplete refs) {id : Oid}
    (h : id ∈ hiddenTips db refs) : ∃ r ∈ refs, db.Reaches r.oid id := by
  obtain ⟨oid, hoid, hid⟩ := List.mem_filterMap.mp h
  obtain ⟨r, hr, rfl⟩ := List.mem_map.mp (List.mem_eraseDups.mp hoid)
  refine ⟨r, hr, (hrefs r hr).1.trans ?_⟩
  split at hid
  · exact Option.some.inj hid ▸ .refl
  · split at hid
    · rename_i hpeel
      cases hid
      have hempty : Checked db [r.candidate] (fun _ => False) [] [] :=
        ⟨List.nil_subset _, by simp, by simp, by simp⟩
      obtain ⟨-, -, ⟨t, ht, hreach⟩, -⟩ :=
        peelTip_checked hempty ⟨_, List.mem_singleton.mpr rfl, .refl⟩ hpeel
      exact List.mem_singleton.mp ht ▸ hreach
    · cases hid
  · cases hid

/-- What a check that ends well has seen, and what its commit walk left out as hidden. -/
theorem checkConnectivity_seen {walk : RevWalk db} {refs : List RefTip} {stop : Bool}
    (hrefs : db.RefsComplete refs) (h : checkConnectivity db walk refs tips stop = .ok ()) :
    ∃ seen commitTips, Checked db tips (Promised db commitTips) seen [] ∧
      (∀ t ∈ tips, t ∈ seen ∨ Promised db commitTips t) ∧
      ∀ c, (∃ t ∈ commitTips, db.Ancestor t c) → c ∈ seen ∨ ∃ r ∈ refs, db.Reaches r.oid c := by
  unfold checkConnectivity at h
  rw [Checks.bind_eq_ok] at h
  obtain ⟨⟨seen, commitTips⟩, htips, h⟩ := h
  have hstart : Checked db tips (Promised db []) [] [] :=
    ⟨List.nil_subset _, by simp, by simp, by simp⟩
  have hreached : ∀ t ∈ tips.eraseDups, db.Reached tips t :=
    fun t ht => ⟨t, List.mem_eraseDups.mp ht, .refl⟩
  obtain ⟨hchecked, hcommits, -, -, hall⟩ := checkTips_checked hstart (by simp) hreached htips
  have hmet : ∀ t ∈ tips, t ∈ seen ∨ Promised db commitTips t :=
    fun t ht => hall t (List.mem_eraseDups.mpr ht)
  dsimp only at h
  by_cases hempty : commitTips.isEmpty
  · refine ⟨seen, commitTips, hchecked, hmet, fun c hc => ?_⟩
    rw [List.isEmpty_iff.mp hempty] at hc
    simp at hc
  · rw [if_neg hempty] at h
    split at h
    · cases h
    · rename_i commits hwalk
      rw [Checks.bind_eq_ok] at h
      obtain ⟨seen', hcommit, -⟩ := h
      have hexact := walk.exact hwalk
      have hwalked : ∀ c ∈ commits, db.Reached tips c ∧ ∃ t ∈ commitTips, db.Ancestor t c := by
        intro c hc
        obtain ⟨t, ht, hanc⟩ := ((hexact c).mp hc).1
        obtain ⟨tip, htip, hreach⟩ := hcommits t ht
        exact ⟨⟨tip, htip, hreach.trans (Odb.Reaches.of_ancestor hanc)⟩, t, ht, hanc⟩
      obtain ⟨hchecked', hsub, hseen⟩ := checkCommits_checked hchecked hwalked hcommit
      refine ⟨seen', commitTips, hchecked', fun t ht => (hmet t ht).imp_left (hsub ·), ?_⟩
      intro c hc
      by_cases hhidden : ∃ h ∈ (if stop then hiddenTips db refs else []), db.Ancestor h c
      · obtain ⟨h, hh, hanc⟩ := hhidden
        split_ifs at hh
        · obtain ⟨r, hr, hreach⟩ := hiddenTips_reached hrefs hh
          exact Or.inr ⟨r, hr, hreach.trans (Odb.Reaches.of_ancestor hanc)⟩
        · cases hh
      · refine Or.inl (hseen ((hexact c).mpr ⟨hc, fun h hh hanc => hhidden ⟨h, hh, hanc⟩⟩))

/-- Clear paths stay among what was seen or is part of the existing refs. -/
theorem clear_covered {refs : List RefTip} {commitTips : List Oid}
    (hchecked : Checked db tips (Promised db commitTips) seen [])
    (hcommits : ∀ c, (∃ t ∈ commitTips, db.Ancestor t c) →
      c ∈ seen ∨ ∃ r ∈ refs, db.Reaches r.oid c) {t x : Oid}
    (ht : t ∈ seen ∨ Promised db commitTips t)
    (hpath : Relation.ReflTransGen (fun a b => db.Link a b ∧ ¬ db.NamedAsBlob tips a) t x) :
    x ∈ seen ∨ db.find x = some .blob ∨ ∃ r ∈ refs, db.Reaches r.oid x := by
  have hcovered : ∀ {y}, y ∈ seen ∨ Promised db commitTips y →
      y ∈ seen ∨ db.find y = some .blob ∨ ∃ r ∈ refs, db.Reaches r.oid y := by
    rintro y (hy | hy | hy)
    · exact Or.inl hy
    · exact Or.inr (Or.inl hy)
    · exact (hcommits y hy).imp_right Or.inr
  induction hpath with
  | refl => exact hcovered ht
  | tail _ hstep ih =>
    obtain ⟨hlink, hclear⟩ := hstep
    rcases ih with hseen | hblob | ⟨r, hr, hreach⟩
    · rcases hchecked.walked _ hseen with hnamed | hqueue | hwalked
      · exact absurd hnamed hclear
      · cases hqueue
      · exact hcovered (hwalked _ hlink)
    · obtain ⟨o, ho, hmem⟩ := hlink
      cases hblob.symm.trans ho
      cases hmem
    · exact Or.inr (Or.inr ⟨r, hr, hreach.tail hlink⟩)

end Soundness

end Connectivity

section Sound

open Connectivity

/-- A push that passes the check is complete exactly if what it lacks shows without following an
object that one of its trees names as a blob. -/
theorem connectivity_sound {db : Odb} {walk : RevWalk db} {refs : List RefTip} {tips : List Oid}
    {stop : Bool} (hrefs : db.RefsComplete refs)
    (h : checkConnectivity db walk refs tips stop = .ok ()) :
    (∀ x, db.Reached tips x → db.has x) ↔ db.Unmasked tips := by
  constructor
  · exact fun hall x hx hmissing => absurd (hall x hx) hmissing
  · intro hclear x hx
    by_contra hmissing
    obtain ⟨m, ⟨t, ht, hpath⟩, hm⟩ := hclear x hx hmissing
    obtain ⟨seen, commitTips, hchecked, hmet, hcommits⟩ := checkConnectivity_seen hrefs h
    rcases clear_covered hchecked hcommits (hmet t ht) hpath with hseen | hblob | ⟨r, hr, hreach⟩
    · exact hm (hchecked.has m hseen)
    · exact hm (by simp [Odb.has, hblob])
    · exact hm ((hrefs r hr).2 m hreach)

/-- A commit whose tree names a directory first as a blob and then as a tree; the file in the
directory is missing. -/
def maskedFile : Odb where
  objects := [(Text.repeated 'c', .commit (Text.repeated 'a') []),
    (Text.repeated 'a', .tree [⟨.blob, "a", Text.repeated 'd'⟩, ⟨.tree, "b", Text.repeated 'd'⟩]),
    (Text.repeated 'd', .tree [⟨.blob, "f", Text.repeated 'f'⟩])]

theorem connectivity_maskedFile :
    checkConnectivity maskedFile (.search maskedFile) [] [Text.repeated 'c'] true = .ok () := by
  decide

theorem connectivity_sound_maskedFile :
    (∀ x, maskedFile.Reached [Text.repeated 'c'] x → maskedFile.has x) ↔
      maskedFile.Unmasked [Text.repeated 'c'] := by
  have hrefs : maskedFile.RefsComplete [] := by simp [Odb.RefsComplete]
  exact connectivity_sound hrefs connectivity_maskedFile

/-- The check passes although a reached object is missing. -/
theorem connectivity_misses : maskedFile.RefsComplete [] ∧
    checkConnectivity maskedFile (.search maskedFile) [] [Text.repeated 'c'] true = .ok () ∧
    maskedFile.Reached [Text.repeated 'c'] (Text.repeated 'f') ∧
    ¬ maskedFile.has (Text.repeated 'f') := by
  have hlink : ∀ x o y, maskedFile.find x = some o → y ∈ o.links → maskedFile.Link x y :=
    fun x o y ho hy => ⟨o, ho, hy⟩
  have hroot := hlink (Text.repeated 'c') (.commit (Text.repeated 'a') []) (Text.repeated 'a')
    (by decide) (by decide)
  have hdir := hlink (Text.repeated 'a')
    (.tree [⟨.blob, "a", Text.repeated 'd'⟩, ⟨.tree, "b", Text.repeated 'd'⟩]) (Text.repeated 'd')
    (by decide) (by decide)
  have hfile := hlink (Text.repeated 'd') (.tree [⟨.blob, "f", Text.repeated 'f'⟩])
    (Text.repeated 'f') (by decide) (by decide)
  refine ⟨by simp [Odb.RefsComplete], connectivity_maskedFile, ?_, by decide⟩
  exact ⟨_, List.mem_singleton.mpr rfl, ((Relation.ReflTransGen.single hroot).tail hdir).tail hfile⟩

end Sound

end Walgit
