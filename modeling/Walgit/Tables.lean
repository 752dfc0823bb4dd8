import Mathlib.Data.List.Infix
import Walgit.SortedMap

/-!
# Documents of nested tables

A document binds names to values; a value is a table of further values or something that is no
table. A path names a value by the tables it lies in.
-/
namespace Document

open SortedMap

inductive Value (ρ : Type) where
  | plain (r : ρ)
  | table (entries : List (String × Value ρ))

abbrev Table (ρ : Type) := List (String × Value ρ)

variable {ρ : Type}

/-- The value at a path. -/
def Value.find (v : Value ρ) : List String → Option (Value ρ)
  | [] => some v
  | k :: rest =>
    match v with
    | .plain _ => none
    | .table t => (lookup k t).bind (find · rest)

/-- The table a path goes on in: a missing one is empty. -/
def inner (k : String) (t : Table ρ) : Option (Table ρ) :=
  match lookup k t with
  | none => some []
  | some (.table t) => some t
  | some (.plain _) => none

inductive SetError where
  | emptyPath
  | notTable (key : String)
  deriving DecidableEq, Repr

/-- Write a value at a path, with the tables it lies in. -/
def set : List String → Value ρ → Table ρ → Except SetError (Table ρ)
  | [], _, _ => .error .emptyPath
  | [k], v, t => .ok (insertEntry k v t)
  | k :: k' :: rest, v, t =>
    match inner k t with
    | none => .error (.notTable k)
    | some next => (set (k' :: rest) v next).map fun next => insertEntry k (.table next) t

/-- As `set`, with no effect where a value that is no table is in the way. -/
def place : List String → Value ρ → Table ρ → Table ρ
  | [], _, t => t
  | [k], v, t => insertEntry k v t
  | k :: k' :: rest, v, t =>
    match inner k t with
    | none => t
    | some next => insertEntry k (.table (place (k' :: rest) v next)) t

/-- Neither path leads into the other. -/
def Apart (p q : List String) : Prop := ¬ p <+: q ∧ ¬ q <+: p

variable {p q : List String} {k j : String} {v w : Value ρ} {t t' : Table ρ}

theorem Apart.symm (h : Apart p q) : Apart q p := ⟨h.2, h.1⟩

theorem Apart.ne (h : Apart p q) : p ≠ q := by
  rintro rfl
  exact h.1 (List.prefix_refl _)

theorem not_apart_nil : ¬ Apart [] q := fun h => h.1 (List.nil_prefix)

theorem apart_cons : Apart (k :: p) (j :: q) ↔ k ≠ j ∨ Apart p q := by
  simp only [Apart, List.cons_prefix_cons]
  grind

theorem apart_single : Apart [k] (j :: q) ↔ k ≠ j := by
  rw [apart_cons]
  exact or_iff_left not_apart_nil

theorem set_place (h : set p v t = .ok t') : place p v t = t' := by
  induction p, v, t using set.induct generalizing t' with
  | case1 => cases h
  | case2 v t k => exact Except.ok.inj h
  | case3 k k' rest v t hinner => simp [set, hinner] at h
  | case4 k k' rest v t next hinner ih =>
    cases hset : set (k' :: rest) v next with
    | error e => simp [set, hinner, hset, Except.map] at h
    | ok placed =>
      simp only [set, hinner, hset, Except.map, Except.ok.injEq] at h
      simp only [place, hinner, ih hset, h]

theorem inner_insertEntry (hne : k ≠ j) : inner k (insertEntry j v t) = inner k t := by
  rw [inner, lookup_insertEntry, if_neg hne, inner]

theorem inner_insertEntry_self (next : Table ρ) :
    inner k (insertEntry k (.table next) t) = some next := by
  rw [inner, lookup_insertEntry, if_pos rfl]

theorem insertEntry_comm {α : Type} (hne : k ≠ j) (a b : α) (l : List (String × α)) :
    insertEntry k a (insertEntry j b l) = insertEntry j b (insertEntry k a l) := by
  induction l with
  | nil =>
    rcases lt_trichotomy k j with h | h | h
    · simp [insertEntry, h, h.not_gt, hne.symm]
    · exact absurd h hne
    · simp [insertEntry, h, h.not_gt, hne]
  | cons c l ih =>
    simp only [insertEntry]
    grind [insertEntry]

theorem insertEntry_again {α : Type} (a b : α) (l : List (String × α)) :
    insertEntry k a (insertEntry k b l) = insertEntry k a l := by
  induction l with
  | nil => simp [insertEntry]
  | cons c l ih =>
    simp only [insertEntry]
    grind [insertEntry]

/-- What `place` does at the first name of its path. -/
theorem place_cons (k : String) (rest : List String) (v : Value ρ) (t : Table ρ) :
    place (k :: rest) v t = t ∨ ∃ x, place (k :: rest) v t = insertEntry k x t := by
  cases rest with
  | nil => exact .inr ⟨v, rfl⟩
  | cons k' rest =>
    cases hinner : inner k t with
    | none => exact .inl (by simp [place, hinner])
    | some next => exact .inr ⟨.table (place (k' :: rest) v next), by simp [place, hinner]⟩

/-- Writing elsewhere does not change what `place` inserts. -/
theorem place_insertEntry (hne : k ≠ j) (rest : List String) (v w : Value ρ) (t : Table ρ) :
    place (k :: rest) v (insertEntry j w t) = insertEntry j w (place (k :: rest) v t) := by
  cases rest with
  | nil => exact insertEntry_comm hne v w t
  | cons k' rest =>
    cases hinner : inner k t with
    | none => simp [place, inner_insertEntry hne, hinner]
    | some next =>
      simp only [place, inner_insertEntry hne, hinner]
      exact insertEntry_comm hne _ w t

theorem place_inside {k' : String} {rest : List String} {next : Table ρ}
    (h : inner k t = some next) :
    place (k :: k' :: rest) v t = insertEntry k (.table (place (k' :: rest) v next)) t := by
  simp only [place, h]

/-- Writes at paths that lead apart may change places. -/
theorem place_comm (h : Apart p q) (v w : Value ρ) (t : Table ρ) :
    place p v (place q w t) = place q w (place p v t) := by
  induction p generalizing q t with
  | nil => exact absurd h not_apart_nil
  | cons k p ih =>
    cases q with
    | nil => exact absurd h.symm not_apart_nil
    | cons j q =>
      by_cases hkj : k = j
      · subst hkj
        have hpq := (apart_cons.mp h).resolve_left (by simp)
        cases p with
        | nil => exact absurd hpq not_apart_nil
        | cons k' p =>
          cases q with
          | nil => exact absurd hpq.symm not_apart_nil
          | cons j' q =>
            cases hinner : inner k t with
            | none => simp [place, hinner]
            | some next =>
              rw [place_inside hinner, place_inside hinner,
                place_inside (inner_insertEntry_self _), place_inside (inner_insertEntry_self _),
                insertEntry_again, insertEntry_again, ih hpq]
      · rcases place_cons j q w t with hq | ⟨x, hq⟩
        · rcases place_cons k p v t with hp | ⟨y, hp⟩
          · rw [hq, hp, hq]
          · rw [hq, hp, place_insertEntry (Ne.symm hkj), hq]
        · rw [hq, place_insertEntry hkj]
          rcases place_cons k p v t with hp | ⟨y, hp⟩
          · rw [hp, hq]
          · rw [hp, place_insertEntry (Ne.symm hkj), hq]
            exact insertEntry_comm (Ne.symm hkj) x y t

end Document
