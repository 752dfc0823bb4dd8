import Walgit.PublisherRuns
import Walgit.RefEffects

/-!
# Directory and file conflicts

A ref store keeps names as paths, so a name and a name below it cannot both exist. The
publisher compares old values only; this module says which transactions keep the
committed refs free of such pairs.
-/
namespace Walgit

open Text

/-- The second name is the first followed by a slash and more. -/
def nested (a b : String) : Bool :=
  startsWith (a ++ "/") b && decide (a.length + 1 < b.length)

theorem nested_iff {a b : String} : nested a b ↔ ∃ rest, rest ≠ "" ∧ b = a ++ "/" ++ rest := by
  simp only [nested, startsWith, Bool.and_eq_true, decide_eq_true_eq, List.isPrefixOf_iff_prefix]
  constructor
  · rintro ⟨⟨rest, hrest⟩, hlen⟩
    refine ⟨String.ofList rest, ?_, ?_⟩
    · rintro hnil
      have hempty : rest = [] := by simpa using congrArg String.toList hnil
      have hlength := congrArg List.length hrest
      simp only [hempty, List.append_nil, String.toList_append, List.length_append,
        String.length_toList] at hlength
      have hslash : "/".length = 1 := rfl
      omega
    · apply String.toList_injective
      simp [← hrest]
  · rintro ⟨rest, hne, rfl⟩
    refine ⟨⟨rest.toList, by simp⟩, ?_⟩
    have hpos : 0 < rest.length := by
      rw [Nat.pos_iff_ne_zero]
      intro hzero
      exact hne (by simpa using hzero)
    simp only [String.length_append]
    have hslash : "/".length = 1 := rfl
    omega

namespace RefState

/-- No name of the state is below another one. -/
def ConflictFree (s : RefState) : Prop :=
  ∀ a b, (s.refs.find? a).isSome → (s.refs.find? b).isSome → nested a b = false

/-- No name a transaction leaves set is above or below one that it leaves set or alone. -/
def clear (s : RefState) (t : RefTransaction) : Bool :=
  t.sets.all fun a =>
    (t.sets.map Prod.fst ++ s.refs.keys.filter fun b => (t.last b).isNone).all fun b =>
      !nested a.1 b && !nested b a.1

theorem clear_iff {s : RefState} {t : RefTransaction} :
    s.clear t ↔ ∀ a ∈ t.sets, ∀ b, ((s.applyTxn t).refs.find? b).isSome →
      nested a.1 b = false ∧ nested b a.1 = false := by
  have hafter : ∀ b, ((s.applyTxn t).refs.find? b).isSome ↔
      b ∈ t.sets.map Prod.fst ∨ (b ∈ s.refs.keys ∧ (t.last b).isNone) := by
    intro b
    simp only [Option.isSome_iff_exists, applyTxn_find?_eq_some, SortedMap.mem_keys, List.mem_map,
      Prod.exists, exists_and_right, exists_eq_right, Option.isNone_iff_eq_none]
    constructor
    · rintro ⟨oid, hset | ⟨hlast, hfind⟩⟩
      · exact Or.inl ⟨oid, hset⟩
      · exact Or.inr ⟨⟨oid, hfind⟩, hlast⟩
    · rintro (⟨oid, hset⟩ | ⟨⟨oid, hfind⟩, hlast⟩)
      · exact ⟨oid, Or.inl hset⟩
      · exact ⟨oid, Or.inr ⟨hlast, hfind⟩⟩
  simp only [clear, List.all_eq_true, List.mem_append, List.mem_filter, Bool.and_eq_true,
    Bool.not_eq_true', hafter]

/-- A transaction keeps a state free of conflicts exactly if it is clear of it. -/
theorem conflictFree_applyTxn {s : RefState} (h : s.ConflictFree) (t : RefTransaction) :
    (s.applyTxn t).ConflictFree ↔ s.clear t := by
  rw [clear_iff]
  constructor
  · intro hafter a ha b hb
    have hset : ((s.applyTxn t).refs.find? a.1).isSome :=
      Option.isSome_iff_exists.mpr ⟨a.2, applyTxn_find?_eq_some.mpr (Or.inl ha)⟩
    exact ⟨hafter a.1 b hset hb, hafter b a.1 hb hset⟩
  · intro hclear a b ha hb
    obtain ⟨oid, hoid⟩ := Option.isSome_iff_exists.mp ha
    obtain ⟨oid', hoid'⟩ := Option.isSome_iff_exists.mp hb
    rcases applyTxn_find?_eq_some.mp hoid with hset | ⟨-, hold⟩
    · exact (hclear _ hset b hb).1
    · rcases applyTxn_find?_eq_some.mp hoid' with hset' | ⟨-, hold'⟩
      · exact (hclear _ hset' a ha).2
      · exact h a b (by simp [hold]) (by simp [hold'])

theorem conflictFree_fresh : fresh.ConflictFree := by
  intro a b ha
  simp [fresh] at ha

/-- The transactions of a list of requests, each clear of what the ones before it leave. -/
def ClearRequests (s : RefState) : List PublishRequest → Prop
  | [] => True
  | req :: reqs => s.clear req.txn ∧ (s.applyTxn req.txn).ClearRequests reqs

/-- The transactions of a list of entries, each clear of what the ones before it leave. -/
def ClearEntries (s : RefState) : List LogEntry → Prop
  | [] => True
  | e :: es => (∀ t ∈ e.txn, s.clear t) ∧ ((e.txn.map s.applyTxn).getD s).ClearEntries es

theorem conflictFree_entry {s : RefState} (h : s.ConflictFree) (e : LogEntry) :
    ((e.txn.map s.applyTxn).getD s).ConflictFree ↔ ∀ t ∈ e.txn, s.clear t := by
  cases htxn : e.txn with
  | none => simpa using h
  | some t => simpa using conflictFree_applyTxn h t

/-- A log keeps the refs free of conflicts exactly if each entry is clear of its past. -/
theorem conflictFree_prefixes {s : RefState} (h : s.ConflictFree) (es : List LogEntry) :
    (∀ p, p <+: es → (foldRefs s p).ConflictFree) ↔ s.ClearEntries es := by
  induction es generalizing s with
  | nil =>
    refine ⟨fun _ => trivial, fun _ p hp => ?_⟩
    rw [List.prefix_nil.mp hp]
    exact h
  | cons e es ih =>
    have hentry := conflictFree_entry h e
    constructor
    · intro hall
      have hone := hall [e] ⟨es, rfl⟩
      rw [foldRefs_cons, foldRefs_nil] at hone
      refine ⟨hentry.mp hone, (ih hone).mp fun p hp => ?_⟩
      have hcons := hall (e :: p) ((List.prefix_cons_inj e).mpr hp)
      rwa [foldRefs_cons] at hcons
    · rintro ⟨hclear, hrest⟩ p hp
      cases p with
      | nil => exact h
      | cons e' p =>
        obtain ⟨rfl, hrestp⟩ := List.cons_prefix_cons.mp hp
        rw [foldRefs_cons]
        exact (ih (hentry.mpr hclear)).mpr hrest p hrestp

theorem clearEntries_append (s : RefState) (es fs : List LogEntry) :
    s.ClearEntries (es ++ fs) ↔ s.ClearEntries es ∧ (foldRefs s es).ClearEntries fs := by
  induction es generalizing s with
  | nil => simp [ClearEntries]
  | cons e es ih => rw [List.cons_append, ClearEntries, ClearEntries, ih, foldRefs_cons, and_assoc]

theorem clearEntries_withNonce (s : RefState) (uuid : String) (es : List LogEntry) :
    s.ClearEntries (withNonce uuid es) ↔ s.ClearEntries es := by
  cases es <;> rfl

theorem clearEntries_of_none (s : RefState) {es : List LogEntry} (h : ∀ e ∈ es, e.txn = none) :
    s.ClearEntries es := by
  induction es with
  | nil => trivial
  | cons e es ih =>
    rw [ClearEntries, h e List.mem_cons_self]
    exact ⟨by simp, ih fun e' he' => h e' (List.mem_cons_of_mem e he')⟩

/-- A request without updates is clear of everything. -/
theorem clear_of_empty (s : RefState) {t : RefTransaction} (h : t.updates = []) :
    s.clear t ∧ s.applyTxn t = s := by
  simp [clear, RefTransaction.sets, applyTxn, h]

theorem clearEntries_buildEntries (s : RefState) (writer : String) (publishedAt : Timestamp)
    (now : ℕ → Timestamp) (seq : ℕ) (members : List (PublishRequest × List ForgeEvent)) :
    s.ClearEntries (buildEntries writer publishedAt now seq members) ↔
      s.ClearRequests (members.map Prod.fst) := by
  induction members generalizing s seq with
  | nil => rfl
  | cons m members ih =>
    rw [buildEntries, ClearEntries, List.map_cons, ClearRequests, ih]
    cases hforge : m.1.forgeOnly with
    | true =>
      have hempty : m.1.txn.updates = [] := by
        simp only [PublishRequest.forgeOnly, Bool.and_eq_true, List.isEmpty_iff] at hforge
        exact hforge.2
      obtain ⟨hclear, hsame⟩ := clear_of_empty s hempty
      simp [buildEntry, hforge, hclear, hsame]
    | false => simp [buildEntry, hforge]

end RefState

instance decidableClearRequests (s : RefState) : (reqs : List PublishRequest) →
    Decidable (s.ClearRequests reqs)
  | [] => inferInstanceAs (Decidable True)
  | req :: reqs =>
    have := decidableClearRequests (s.applyTxn req.txn) reqs
    inferInstanceAs (Decidable (_ ∧ _))

section Log

variable [Text.CharTables]

/-- Every committed request's transaction is clear of the refs committed before it. -/
def RefsClear : List Generation → Prop
  | [] => True
  | g :: gens => RefsClear gens ∧ ∀ o ∈ g.origin, ∀ reqs, o.job = .batch reqs →
      (foldRefs .fresh (committedEntries gens)).ClearRequests
        ((accepted reqs (verifyBatch o.attempt.basis reqs).1).map Prod.fst)

instance decidableRefsClear : (gens : List Generation) → Decidable (RefsClear gens)
  | [] => inferInstanceAs (Decidable True)
  | ⟨_, _, some ⟨.batch reqs, a, _⟩⟩ :: gens =>
    have := decidableRefsClear gens
    decidable_of_iff (RefsClear gens ∧ (foldRefs .fresh (committedEntries gens)).ClearRequests
      ((accepted reqs (verifyBatch a.basis reqs).1).map Prod.fst)) (by simp [RefsClear])
  | ⟨_, _, some ⟨.compact .., _, _⟩⟩ :: gens | ⟨_, _, some ⟨.control _, _, _⟩⟩ :: gens
  | ⟨_, _, some ⟨.sealPacks .., _, _⟩⟩ :: gens | ⟨_, _, none⟩ :: gens =>
    have := decidableRefsClear gens
    decidable_of_iff (RefsClear gens) (by simp [RefsClear])

theorem Origin.Wrote.clearEntries {o : Origin} (h : o.Wrote) (s : RefState) :
    s.ClearEntries o.slot.bytes ↔ ∀ reqs, o.job = .batch reqs →
      s.ClearRequests ((accepted reqs (verifyBatch o.attempt.basis reqs).1).map Prod.fst) := by
  obtain ⟨clock, es, hes, -, hbytes⟩ := h
  rw [hbytes, RefState.clearEntries_withNonce]
  cases hb : o.job.isBatch with
  | true =>
    cases hjob : o.job with
    | batch reqs =>
      rw [hjob] at hes
      cases hes
      rw [RefState.clearEntries_buildEntries]
      simp
    | _ =>
      rw [hjob] at hb
      cases hb
  | false =>
    refine iff_of_true (s.clearEntries_of_none fun e he => ?_) fun reqs hjob => ?_
    · exact (Job.entries_of_not_batch hes hb e he).1
    · rw [hjob] at hb
      cases hb

theorem Chain.clearEntries {cfg : Config} {gens : List Generation} (h : Chain cfg gens) :
    RefState.fresh.ClearEntries (committedEntries gens) ↔ RefsClear gens := by
  induction h with
  | created access now writer version => simp [committedEntries, RefState.ClearEntries, RefsClear]
  | append older o now m version basis wrote burned edit newer ih =>
    rw [committedEntries, RefState.clearEntries_append, ih]
    refine and_congr Iff.rfl ((wrote.clearEntries _).trans ?_)
    simp
  | rewrite older job policy writer now m version edit folded newer ih =>
    rw [committedEntries, RefState.clearEntries_append, ih]
    exact and_congr Iff.rfl (iff_of_true trivial (by simp))

/-- The refs of a committed log have no directory and file conflict, at its end and before,
exactly if every committed request was clear of the refs it was committed onto. -/
theorem committed_refs_conflictFree {cfg : Config} {access : Option RepoAccess} {now : Timestamp}
    {writer : String} {w : World} {actions : List Action}
    (hrun : Runs.run (step cfg) (World.created (createdManifest access now writer)) actions =
      some w) :
    (∀ p, p <+: committedEntries w.gens → (foldRefs .fresh p).ConflictFree) ↔
      RefsClear w.gens := by
  rw [RefState.conflictFree_prefixes RefState.conflictFree_fresh]
  exact (inv_run hrun).chain.clearEntries

end Log

section Branches

attribute [local instance] Text.asciiTables

def createBranch (name : String) : PublishRequest :=
  { txn := ⟨[⟨name, "", "aaaaaaaaaaaaaaaaaaaaaaaaaaaaaaaaaaaaaaaa", ""⟩], [], true⟩ }

/-- One batch that creates the branches. -/
def createBranches (names : List String) : List Action :=
  [.start 1 (.batch (names.map createBranch)),
    .capture 1 ⟨⟨createdManifest none ⟨1, 0⟩ "w", some 0, .new .fresh, .empty, none⟩,
      ⟨"", .empty⟩, "w", ⟨2, 0⟩⟩,
    .claim 1 "a" (fun _ => ⟨2, 0⟩) .delivered, .swap 1 ⟨3, 0⟩ .delivered, .finish 1]

/-- Two new branches side by side. -/
theorem committed_refs_conflictFree_siblings :
    ∃ w : World, (committedEntries w.gens).length = 2 ∧
      ∀ p, p <+: committedEntries w.gens → (foldRefs .fresh p).ConflictFree := by
  have hsome : ((Runs.run (step ⟨3, List.length⟩) (World.created (createdManifest none ⟨1, 0⟩ "w"))
      (createBranches ["refs/heads/a", "refs/heads/b"])).map fun w =>
        ((committedEntries w.gens).length, decide (RefsClear w.gens))) = some (2, true) := by
    decide
  obtain ⟨w, hrun, heq⟩ := Option.map_eq_some_iff.mp hsome
  simp only [Prod.mk.injEq, decide_eq_true_eq] at heq
  exact ⟨w, heq.1, (committed_refs_conflictFree hrun).mpr heq.2⟩

/-- A branch and a branch below it are both committed. -/
theorem committed_refs_nested :
    ∃ w : World, Runs.run (step ⟨3, List.length⟩)
        (World.created (createdManifest none ⟨1, 0⟩ "w"))
        (createBranches ["refs/heads/a", "refs/heads/a/b"]) = some w ∧
      ((createBranch "refs/heads/a").txn.valid ∧ (createBranch "refs/heads/a/b").txn.valid) ∧
      ¬∀ p, p <+: committedEntries w.gens → (foldRefs .fresh p).ConflictFree := by
  have hsome : ((Runs.run (step ⟨3, List.length⟩) (World.created (createdManifest none ⟨1, 0⟩ "w"))
      (createBranches ["refs/heads/a", "refs/heads/a/b"])).map fun w =>
        (foldRefs .fresh (committedEntries w.gens)).refs.keys) =
          some ["refs/heads/a", "refs/heads/a/b"] := by decide
  obtain ⟨w, hrun, hkeys⟩ := Option.map_eq_some_iff.mp hsome
  refine ⟨w, hrun, by decide, fun hfree => ?_⟩
  have hnested := hfree _ List.prefix_rfl "refs/heads/a" "refs/heads/a/b"
    (SortedMap.mem_keys.mp (by simp [hkeys])) (SortedMap.mem_keys.mp (by simp [hkeys]))
  revert hnested
  decide

end Branches

end Walgit
