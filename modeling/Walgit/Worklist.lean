import Mathlib.Data.List.Basic
import Mathlib.Logic.Relation

/-!
# Worklists

A stack of items, each visited once under its key. A visit may fail, change a state and
put further items on the stack.
-/
namespace Worklist

variable {ι κ σ ε : Type} [DecidableEq κ] (key : ι → κ) (visit : σ → ι → Except ε (σ × List ι))

/-- The walk from a stack, given the keys seen so far; `none` when the fuel runs out. -/
def walk : ℕ → List κ × σ → List ι → Option (Except ε (List κ × σ))
  | _, s, [] => some (.ok s)
  | 0, _, _ :: _ => none
  | fuel + 1, s, i :: pending =>
    if key i ∈ s.1 then walk fuel s pending
    else match visit s.2 i with
      | .error e => some (.error e)
      | .ok (t, more) => walk fuel (key i :: s.1, t) (more.reverse ++ pending)

/-- Items whose key was not seen yet. -/
def fresh (items : List ι) (seen : List κ) : ℕ := (items.filter fun i => key i ∉ seen).length

variable {key visit}

theorem fresh_cons_lt {items : List ι} {seen : List κ} {i : ι} (hi : i ∈ items)
    (hnew : key i ∉ seen) : fresh key items (key i :: seen) < fresh key items seen := by
  have hfilter : (items.filter fun j => key j ∉ key i :: seen) =
      (items.filter fun j => key j ∉ seen).filter fun j => key j ≠ key i := by
    rw [List.filter_filter]
    refine List.filter_congr fun j _ => ?_
    simp
  rw [fresh, fresh, hfilter, List.length_filter_lt_length_iff_exists]
  exact ⟨i, List.mem_filter.mpr ⟨hi, by simpa using hnew⟩, by simp⟩

theorem fresh_anti {items : List ι} {seen seen' : List κ} (h : seen ⊆ seen') :
    fresh key items seen' ≤ fresh key items seen := by
  refine (List.monotone_filter_right items fun i hi => ?_).length_le
  simp only [decide_eq_true_eq] at hi ⊢
  exact fun hmem => hi (h hmem)

/-- A walk among finitely many items ends: each visit uses up a key and adds at most `width`
items to the stack. -/
theorem walk_isSome {items : List ι} {width : ℕ}
    (hclosed : ∀ s i t more, visit s i = .ok (t, more) →
      (∀ j ∈ more, j ∈ items) ∧ more.length ≤ width)
    {fuel : ℕ} {s : List κ × σ} {pending : List ι} (hpending : ∀ i ∈ pending, i ∈ items)
    (hfuel : fresh key items s.1 * (width + 1) + pending.length ≤ fuel) :
    (walk key visit fuel s pending).isSome := by
  induction fuel generalizing s pending with
  | zero =>
    cases pending with
    | nil => rfl
    | cons i pending => simp at hfuel
  | succ fuel ih =>
    cases pending with
    | nil => rfl
    | cons i pending =>
      rw [List.length_cons] at hfuel
      have hrest : ∀ j ∈ pending, j ∈ items := fun j hj => hpending j (List.mem_cons_of_mem i hj)
      rw [walk]
      split_ifs with hseen
      · exact ih hrest (by omega)
      · cases hvisit : visit s.2 i with
        | error e => rfl
        | ok r =>
          obtain ⟨hmore, hwidth⟩ := hclosed s.2 i r.1 r.2 hvisit
          have hlt := fresh_cons_lt (hpending i List.mem_cons_self) hseen
          refine ih (fun j hj => ?_) ?_
          · rcases List.mem_append.mp hj with hj | hj
            · exact hmore j (List.mem_reverse.mp hj)
            · exact hrest j hj
          · have hstep : (fresh key items (key i :: s.1) + 1) * (width + 1) ≤
                fresh key items s.1 * (width + 1) := Nat.mul_le_mul_right _ hlt
            rw [Nat.add_mul, Nat.one_mul] at hstep
            simp only [List.length_append, List.length_reverse]
            omega

/-- A walk that ends, step by step: the stack is empty, or its top was seen or is visited. -/
@[elab_as_elim]
theorem walk_steps {s' : List κ × σ} {motive : List κ × σ → List ι → Prop} (done : motive s' [])
    (skip : ∀ s i pending, key i ∈ s.1 → motive s pending → motive s (i :: pending))
    (visited : ∀ s i pending t more fuel, visit s.2 i = .ok (t, more) →
      walk key visit fuel (key i :: s.1, t) (more.reverse ++ pending) = some (.ok s') →
      motive (key i :: s.1, t) (more.reverse ++ pending) → motive s (i :: pending))
    {fuel : ℕ} {s : List κ × σ} {pending : List ι}
    (h : walk key visit fuel s pending = some (.ok s')) : motive s pending := by
  induction fuel generalizing s pending with
  | zero =>
    cases pending with
    | nil =>
      cases h
      exact done
    | cons i pending => cases h
  | succ fuel ih =>
    cases pending with
    | nil =>
      cases h
      exact done
    | cons i pending =>
      rw [walk] at h
      split_ifs at h with hseen
      · exact skip s i pending hseen (ih h)
      · split at h
        · cases h
        · rename_i t more hvisit
          exact visited s i pending t more fuel hvisit h (ih h)

/-- After a walk every item of the stack was seen, and every new key belongs to an item whose
visit succeeded. -/
theorem walk_sound {fuel : ℕ} {s s' : List κ × σ} {pending : List ι}
    (h : walk key visit fuel s pending = some (.ok s')) :
    (∀ k ∈ s.1, k ∈ s'.1) ∧ (∀ i ∈ pending, key i ∈ s'.1) ∧
      ∀ k ∈ s'.1, k ∈ s.1 ∨ ∃ i t r, key i = k ∧ visit t i = .ok r := by
  refine walk_steps ?done ?skip ?visited h
  case done => exact ⟨fun _ hk => hk, by simp, fun _ hk => Or.inl hk⟩
  case skip =>
    intro s i pending hseen ⟨hkept, hstack, hsound⟩
    exact ⟨hkept, List.forall_mem_cons.mpr ⟨hkept _ hseen, hstack⟩, hsound⟩
  case visited =>
    intro s i pending t more _ hvisit _ ⟨hkept, hstack, hsound⟩
    refine ⟨fun k hk => hkept k (List.mem_cons_of_mem _ hk), List.forall_mem_cons.mpr
      ⟨hkept _ List.mem_cons_self, fun j hj => hstack j (List.mem_append_right _ hj)⟩,
      fun k hk => ?_⟩
    rcases hsound k hk with hk | hk
    · rcases List.mem_cons.mp hk with rfl | hk
      · exact Or.inr ⟨i, s.2, (t, more), rfl, hvisit⟩
      · exact Or.inl hk
    · exact Or.inr hk

/-- A walk leaves nothing out: what the visit of a new key put on the stack was seen too. -/
theorem walk_closed {fuel : ℕ} {s s' : List κ × σ} {pending : List ι}
    (h : walk key visit fuel s pending = some (.ok s')) :
    ∀ k ∈ s'.1, k ∈ s.1 ∨ ∃ i t t' more, key i = k ∧ visit t i = .ok (t', more) ∧
      ∀ j ∈ more, key j ∈ s'.1 := by
  refine walk_steps ?done ?skip ?visited h
  case done => exact fun k hk => Or.inl hk
  case skip => exact fun s i pending hseen ih => ih
  case visited =>
    intro s i pending t more _ hvisit hrest ih k hk
    rcases ih k hk with hold | hnew
    · rcases List.mem_cons.mp hold with rfl | hold
      · refine Or.inr ⟨i, s.2, t, more, rfl, hvisit, fun j hj => ?_⟩
        exact (walk_sound hrest).2.1 j (List.mem_append_left _ (List.mem_reverse.mpr hj))
      · exact Or.inl hold
    · exact Or.inr hnew

/-- What holds of the items of the stack, and is handed on by visits, holds of what is seen. -/
theorem walk_induct {P : ι → Prop} (hvisit : ∀ s i t more, P i → visit s i = .ok (t, more) →
      ∀ j ∈ more, P j)
    {fuel : ℕ} {s s' : List κ × σ} {pending : List ι} (hpending : ∀ i ∈ pending, P i)
    (h : walk key visit fuel s pending = some (.ok s')) :
    ∀ k ∈ s'.1, k ∈ s.1 ∨ ∃ i, key i = k ∧ P i := by
  revert hpending
  refine walk_steps ?done ?skip ?visited h
  case done => exact fun _ k hk => Or.inl hk
  case skip => exact fun s i pending hseen ih hpending => ih (List.forall_mem_cons.mp hpending).2
  case visited =>
    intro s i pending t more _ hok _ ih hpending k hk
    rw [List.forall_mem_cons] at hpending
    have hstack : ∀ j ∈ more.reverse ++ pending, P j := by
      intro j hj
      rcases List.mem_append.mp hj with hj | hj
      · exact hvisit s.2 i t more hpending.1 hok j (List.mem_reverse.mp hj)
      · exact hpending.2 j hj
    rcases ih hstack k hk with hold | hnew
    · rcases List.mem_cons.mp hold with rfl | hold
      · exact Or.inr ⟨i, rfl, hpending.1⟩
      · exact Or.inl hold
    · exact Or.inr hnew

section Search

variable {α : Type} [DecidableEq α] (next : α → List α)

/-- The items a search from `seeds` sees, in the order it sees them. -/
def search (fuel : ℕ) (seeds : List α) : List α :=
  match walk id (fun _ i => Except.ok (ε := Empty) ((), next i)) fuel ([], ()) seeds with
  | some (.ok s) => s.1.reverse
  | _ => []

/-- Enough fuel for a search among `items`. -/
def searchFuel (items : List α) (width : ℕ) (seeds : List α) : ℕ :=
  items.length * (width + 1) + seeds.length

variable {next}

/-- A search sees what can be reached from its seeds. -/
theorem mem_search {items seeds : List α} {width : ℕ} (hseeds : ∀ s ∈ seeds, s ∈ items)
    (hnext : ∀ a, (∀ b ∈ next a, b ∈ items) ∧ (next a).length ≤ width) {a : α} :
    a ∈ search next (searchFuel items width seeds) seeds ↔
      ∃ s ∈ seeds, Relation.ReflTransGen (fun a b => b ∈ next a) s a := by
  have hsome : (walk id (fun _ i => Except.ok (ε := Empty) ((), next i))
      (searchFuel items width seeds) ([], ()) seeds).isSome := by
    have hclosed : ∀ (s : Unit) (i : α) (t : Unit) (more : List α),
        Except.ok (ε := Empty) ((), next i) = .ok (t, more) →
          (∀ j ∈ more, j ∈ items) ∧ more.length ≤ width := by
      intro s i t more hvisit
      cases hvisit
      exact hnext i
    refine walk_isSome hclosed hseeds ?_
    simp [fresh, searchFuel]
  unfold search
  split
  · rename_i s hwalk
    rw [List.mem_reverse]
    constructor
    · intro ha
      have hreach := walk_induct (P := fun i => ∃ s ∈ seeds,
        Relation.ReflTransGen (fun a b => b ∈ next a) s i) ?_ ?_ hwalk a ha
      · rcases hreach with hnil | ⟨i, rfl, hi⟩
        · cases hnil
        · exact hi
      · rintro _ i _ more ⟨s, hs, hsi⟩ hvisit j hj
        cases hvisit
        exact ⟨s, hs, hsi.tail hj⟩
      · exact fun i hi => ⟨i, hi, .refl⟩
    · rintro ⟨s', hs', hreach⟩
      induction hreach with
      | refl => exact (walk_sound hwalk).2.1 s' hs'
      | tail _ hlink ih =>
        rcases walk_closed hwalk _ ih with hnil | ⟨i, t, t', more, rfl, hvisit, hmore⟩
        · cases hnil
        · cases hvisit
          exact hmore _ hlink
  · rename_i hnone
    exfalso
    obtain ⟨r, hr⟩ := Option.isSome_iff_exists.mp hsome
    cases r with
    | error e => exact e.elim
    | ok s => exact hnone s hr

end Search

end Worklist
