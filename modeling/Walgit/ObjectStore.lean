import Mathlib.Logic.Function.Basic
import Mathlib.Data.Nat.Notation
import Mathlib.Data.Option.Basic
import Mathlib.Tactic.SplitIfs

/-!
# Versioned object store

Keys hold a value under a version; every write takes a version never used before.
Conditional writes either apply or leave the store as it was.
-/

/-- Objects by key, with the next version to hand out. -/
structure ObjectStore (κ ν : Type) where
  objects : κ → Option (ℕ × ν)
  next : ℕ

namespace ObjectStore

variable {κ ν : Type} [DecidableEq κ]

/-- Condition of a write: the key is absent, or holds exactly this version. -/
inductive PutMode where
  | create
  | update (version : ℕ)
  deriving DecidableEq, Repr

def version (s : ObjectStore κ ν) (k : κ) : Option ℕ := (s.objects k).map Prod.fst

def accepts (s : ObjectStore κ ν) (k : κ) : PutMode → Bool
  | .create => (s.objects k).isNone
  | .update v => s.version k == some v

/-- The store after an applied write; the new version is `s.next`. -/
def write (s : ObjectStore κ ν) (k : κ) (value : ν) : ObjectStore κ ν :=
  ⟨Function.update s.objects k (some (s.next, value)), s.next + 1⟩

/-- Conditional write; `none` is a failed precondition. -/
def put (s : ObjectStore κ ν) (k : κ) (value : ν) (mode : PutMode) : Option (ObjectStore κ ν) :=
  if s.accepts k mode then some (s.write k value) else none

/-- Conditional delete: nothing happens unless the key holds exactly this version. -/
def delete (s : ObjectStore κ ν) (k : κ) (v : ℕ) : ObjectStore κ ν :=
  if s.version k = some v then ⟨Function.update s.objects k none, s.next⟩ else s

/-- Every stored version was handed out. -/
def Bounded (s : ObjectStore κ ν) : Prop := ∀ k v x, s.objects k = some (v, x) → v < s.next

theorem write_objects (s : ObjectStore κ ν) (k j : κ) (value : ν) :
    (s.write k value).objects j = if j = k then some (s.next, value) else s.objects j := by
  simp [write, Function.update_apply]

theorem write_isSome (s : ObjectStore κ ν) (k : κ) (value : ν) :
    ((s.write k value).objects k).isSome := by
  rw [write_objects, if_pos rfl]
  rfl

@[simp] theorem write_next (s : ObjectStore κ ν) (k : κ) (value : ν) :
    (s.write k value).next = s.next + 1 := rfl

theorem put_eq_some {s t : ObjectStore κ ν} {k : κ} {value : ν} {mode : PutMode}
    (h : s.put k value mode = some t) : s.accepts k mode ∧ t = s.write k value := by
  unfold put at h
  split_ifs at h with ha
  exact ⟨ha, (Option.some.inj h).symm⟩

@[simp] theorem delete_next (s : ObjectStore κ ν) (k : κ) (v : ℕ) : (s.delete k v).next = s.next := by
  unfold delete
  split_ifs <;> rfl

/-- A delete keeps every object it does not name by key and version. -/
theorem delete_objects_of_ne {s : ObjectStore κ ν} {k j : κ} {v w : ℕ} {x : ν}
    (h : s.objects j = some (w, x)) (hne : j = k → w ≠ v) :
    (s.delete k v).objects j = some (w, x) := by
  unfold delete
  split_ifs with hv
  · by_cases hjk : j = k
    · subst hjk
      simp only [version, h, Option.map_some, Option.some.injEq] at hv
      exact absurd hv (hne rfl)
    · simpa [Function.update_of_ne hjk] using h
  · exact h

theorem delete_objects_eq_some {s : ObjectStore κ ν} {k j : κ} {v w : ℕ} {x : ν}
    (h : (s.delete k v).objects j = some (w, x)) : s.objects j = some (w, x) := by
  unfold delete at h
  split_ifs at h with hv
  · by_cases hjk : j = k
    · subst hjk
      simp at h
    · simpa [Function.update_of_ne hjk] using h
  · exact h

theorem Bounded.write {s : ObjectStore κ ν} (h : s.Bounded) (k : κ) (value : ν) :
    (s.write k value).Bounded := by
  intro j v x hj
  rw [write_objects] at hj
  split_ifs at hj with hjk
  · cases hj
    exact Nat.lt_succ_self _
  · exact Nat.lt_succ_of_lt (h j v x hj)

theorem Bounded.delete {s : ObjectStore κ ν} (h : s.Bounded) (k : κ) (v : ℕ) :
    (s.delete k v).Bounded := by
  intro j w x hj
  rw [delete_next]
  exact h j w x (delete_objects_eq_some hj)

/-- No key is dropped, and what stands anew at a key has a new version. -/
structure Grows (s t : ObjectStore κ ν) : Prop where
  bounded : s.Bounded → t.Bounded
  keys : ∀ k, (s.objects k).isSome → (t.objects k).isSome
  next : s.next ≤ t.next
  fresh : ∀ k v x, t.objects k = some (v, x) → s.objects k = some (v, x) ∨ s.next ≤ v

namespace Grows

variable {s t u : ObjectStore κ ν}

omit [DecidableEq κ] in
theorem refl (s : ObjectStore κ ν) : s.Grows s :=
  ⟨id, fun _ h => h, Nat.le_refl _, fun _ _ _ h => Or.inl h⟩

omit [DecidableEq κ] in
/-- A version that was handed out before has the value that it had. -/
theorem objects_of_lt (h : s.Grows t) {k : κ} {v : ℕ} {x : ν} (hv : v < s.next)
    (hx : t.objects k = some (v, x)) : s.objects k = some (v, x) :=
  (h.fresh k v x hx).resolve_right (Nat.not_le.mpr hv)

omit [DecidableEq κ] in
theorem trans (h : s.Grows t) (h' : t.Grows u) : s.Grows u := by
  refine ⟨fun hs => h'.bounded (h.bounded hs), fun k hk => h'.keys k (h.keys k hk),
    Nat.le_trans h.next h'.next, fun k v x hx => ?_⟩
  rcases h'.fresh k v x hx with hx | hv
  · exact h.fresh k v x hx
  · exact Or.inr (Nat.le_trans h.next hv)

theorem write (s : ObjectStore κ ν) (k : κ) (value : ν) : s.Grows (s.write k value) := by
  refine ⟨fun h => h.write k value, fun j h => ?_, Nat.le_succ _, fun j v x h => ?_⟩
  · rw [write_objects]
    split_ifs
    · rfl
    · exact h
  · rw [write_objects] at h
    split_ifs at h with hj
    · cases h
      exact Or.inr (Nat.le_refl _)
    · exact Or.inl h

end Grows

end ObjectStore
