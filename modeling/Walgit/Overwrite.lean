import Mathlib.Logic.Function.Basic
import Mathlib.Data.List.Basic

/-!
# Overwrites

A log of writes, each replacing the value of one key. Replaying a log forgets what
its keys held before, so two states that differ only on those keys are reconciled
by one replay, and a replay over a partly replayed state lands in the same place.
-/
namespace Overwrite

variable {κ ν : Type*}

/-- The two states agree on every key the log leaves alone. -/
def AgreesOff (ws : List (κ × ν)) (f g : κ → ν) : Prop :=
  ∀ k, (∀ w ∈ ws, w.1 ≠ k) → f k = g k

theorem AgreesOff.trans {ws : List (κ × ν)} {f g h : κ → ν} (hfg : AgreesOff ws f g)
    (hgh : AgreesOff ws g h) : AgreesOff ws f h := fun k hk => (hfg k hk).trans (hgh k hk)

theorem AgreesOff.mono {ws vs : List (κ × ν)} {f g : κ → ν} (h : AgreesOff ws f g)
    (hsub : ∀ w ∈ ws, w ∈ vs) : AgreesOff vs f g :=
  fun k hk => h k fun w hw => hk w (hsub w hw)

variable [DecidableEq κ]

def apply (f : κ → ν) (w : κ × ν) : κ → ν := Function.update f w.1 w.2

def run (f : κ → ν) (ws : List (κ × ν)) : κ → ν := ws.foldl apply f

@[simp] theorem run_nil (f : κ → ν) : run f [] = f := rfl

@[simp] theorem run_cons (f : κ → ν) (w : κ × ν) (ws : List (κ × ν)) :
    run f (w :: ws) = run (apply f w) ws := rfl

theorem run_append (f : κ → ν) (ws vs : List (κ × ν)) :
    run f (ws ++ vs) = run (run f ws) vs := by
  simp [run, List.foldl_append]

theorem run_untouched {f : κ → ν} {ws : List (κ × ν)} {k : κ} (h : ∀ w ∈ ws, w.1 ≠ k) :
    run f ws k = f k := by
  induction ws generalizing f with
  | nil => rfl
  | cons w ws ih =>
    rw [run_cons, ih fun v hv => h v (List.mem_cons_of_mem _ hv)]
    exact Function.update_of_ne (Ne.symm (h w List.mem_cons_self)) _ _

/-- What a key holds was written by the log, or was there before. -/
theorem run_value (f : κ → ν) (ws : List (κ × ν)) (k : κ) :
    (∃ w ∈ ws, w.1 = k ∧ run f ws k = w.2) ∨ (∀ w ∈ ws, w.1 ≠ k) ∧ run f ws k = f k := by
  induction ws generalizing f with
  | nil => exact Or.inr ⟨by simp, rfl⟩
  | cons w ws ih =>
    rw [run_cons]
    rcases ih (apply f w) with ⟨v, hv, hvk, hrun⟩ | ⟨hnone, hrun⟩
    · exact Or.inl ⟨v, List.mem_cons_of_mem w hv, hvk, hrun⟩
    · by_cases hwk : w.1 = k
      · exact Or.inl ⟨w, List.mem_cons_self, hwk, by rw [hrun, apply, ← hwk, Function.update_self]⟩
      · refine Or.inr ⟨List.forall_mem_cons.mpr ⟨hwk, hnone⟩, ?_⟩
        rw [hrun, apply, Function.update_of_ne (Ne.symm hwk)]

/-- With one write for each key, the write decides. -/
theorem run_of_mem {f : κ → ν} {ws : List (κ × ν)} (hkeys : (ws.map Prod.fst).Nodup) {k : κ} {v : ν}
    (h : (k, v) ∈ ws) : run f ws k = v := by
  induction ws generalizing f with
  | nil => cases h
  | cons w ws ih =>
    rw [List.map_cons, List.nodup_cons] at hkeys
    rcases List.mem_cons.mp h with rfl | h
    · have hother : ∀ w ∈ ws, w.1 ≠ k := fun w hw heq =>
        hkeys.1 (List.mem_map.mpr ⟨w, hw, heq⟩)
      rw [run_cons, run_untouched hother]
      exact Function.update_self ..
    · exact ih hkeys.2 h

/-- The same for writes made from a list, at most one for each element. -/
theorem run_filterMap_of_mem {α : Type*} {f : κ → ν} {w : α → Option (κ × ν)} {l : List α}
    (hkeys : l.Pairwise fun a b => ∀ x, w a = some x → ∀ y, w b = some y → x.1 ≠ y.1)
    {a : α} (ha : a ∈ l) {k : κ} {v : ν} (hw : w a = some (k, v)) : run f (l.filterMap w) k = v := by
  refine run_of_mem ?_ (List.mem_filterMap.mpr ⟨a, ha, hw⟩)
  rw [List.Nodup, List.pairwise_map, List.pairwise_filterMap]
  exact hkeys

theorem run_filterMap_untouched {α : Type*} {f : κ → ν} {w : α → Option (κ × ν)} {l : List α}
    {k : κ} (h : ∀ a ∈ l, ∀ v, w a ≠ some (k, v)) : run f (l.filterMap w) k = f k := by
  refine run_untouched fun x hx hk => ?_
  obtain ⟨a, ha, hw⟩ := List.mem_filterMap.mp hx
  exact h a ha x.2 (by rw [hw, ← hk])

theorem agreesOff_run (ws : List (κ × ν)) (f : κ → ν) : AgreesOff ws (run f ws) f :=
  fun _ hk => run_untouched hk

/-- A replay erases the differences on the keys it writes and keeps the others. -/
theorem AgreesOff.run {ws vs : List (κ × ν)} {f g : κ → ν} (h : AgreesOff (ws ++ vs) f g) :
    AgreesOff vs (run f ws) (run g ws) := by
  induction ws generalizing f g with
  | nil => exact h
  | cons w ws ih =>
    rw [run_cons, run_cons]
    refine ih fun k hk => ?_
    by_cases hwk : w.1 = k
    · subst hwk
      simp [apply]
    · have hne : k ≠ w.1 := fun he => hwk he.symm
      simp only [apply, Function.update_of_ne hne]
      exact h k fun v hv => by
        rcases List.mem_cons.mp hv with rfl | hv
        · exact hwk
        · exact hk v hv

theorem run_eq_of_agreesOff {ws : List (κ × ν)} {f g : κ → ν} (h : AgreesOff ws f g) :
    run f ws = run g ws := by
  have hrun : AgreesOff [] (run f ws) (run g ws) := AgreesOff.run (by rwa [List.append_nil])
  exact funext fun k => hrun k (by simp)

/-- Two states are reconciled at a key exactly where the log writes it or they agreed there. -/
theorem run_apply_eq_iff {ws : List (κ × ν)} {f g : κ → ν} {k : κ} :
    run f ws k = run g ws k ↔ f k = g k ∨ ∃ w ∈ ws, w.1 = k := by
  by_cases hk : ∃ w ∈ ws, w.1 = k
  · refine iff_of_true ?_ (Or.inr hk)
    obtain ⟨w, hw, hwk⟩ := hk
    induction ws generalizing f g w with
    | nil => cases hw
    | cons v ws ih =>
      rw [run_cons, run_cons]
      rcases List.mem_cons.mp hw with rfl | hw
      · by_cases hlater : ∃ v ∈ ws, v.1 = k
        · obtain ⟨v, hv, hvk⟩ := hlater
          exact ih v hv hvk
        · simp only [not_exists, not_and] at hlater
          rw [run_untouched hlater, run_untouched hlater, apply, apply, hwk]
          simp
      · exact ih w hw hwk
  · have hnone : ∀ w ∈ ws, w.1 ≠ k := fun w hw hwk => hk ⟨w, hw, hwk⟩
    rw [run_untouched hnone, run_untouched hnone]
    exact ⟨Or.inl, fun h => h.resolve_right hk⟩

/-- A replay over a state a prefix of it reached already. -/
theorem run_run_append (f : κ → ν) (ws vs : List (κ × ν)) :
    run (run f ws) (ws ++ vs) = run f (ws ++ vs) := by
  rw [run_append, run_append, run_eq_of_agreesOff (agreesOff_run ws f)]

end Overwrite
