import Walgit.Worklist

/-!
# Searching a graph for a goal

Nodes may have a key, and a key has children. A search enters each key once, with one list of
entered keys for all branches, and stops at the first goal among the nodes without a key.
-/
namespace GraphSearch

variable {α κ : Type} [DecidableEq κ] (key : α → Option κ) (children : κ → List α)
  (goal : α → Bool)

/-- Searches from one node after another until a goal is found. -/
def firstOf (search : α → List κ → Bool × List κ) : List α → List κ → Bool × List κ
  | [], seen => (false, seen)
  | a :: as, seen =>
    match search a seen with
    | (true, seen) => (true, seen)
    | (false, seen) => firstOf search as seen

/-- Whether the search finds a goal, and the keys it has entered. -/
def search : ℕ → α → List κ → Bool × List κ
  | 0, _, seen => (false, seen)
  | fuel + 1, a, seen =>
    match key a with
    | none => (goal a, seen)
    | some k => if k ∈ seen then (false, seen)
      else firstOf (search fuel) (children k) (k :: seen)

def Child (a b : α) : Prop := ∃ k, key a = some k ∧ b ∈ children k

/-- A goal can be reached. -/
def Reaches (a : α) : Prop :=
  ∃ b, Relation.ReflTransGen (Child key children) a b ∧ key b = none ∧ goal b = true

variable {key children goal}

/-- The node is no goal, or was entered. -/
def Settled (key : α → Option κ) (goal : α → Bool) (seen : List κ) (a : α) : Prop :=
  (key a = none → goal a = false) ∧ ∀ k, key a = some k → k ∈ seen

omit [DecidableEq κ] in
theorem Settled.mono {seen seen' : List κ} {a : α} (h : Settled key goal seen a)
    (hsub : seen ⊆ seen') : Settled key goal seen' a :=
  ⟨h.1, fun k hk => hsub (h.2 k hk)⟩

/-- What is known after a search that began with some keys entered. -/
structure Outcome (key : α → Option κ) (children : κ → List α) (goal : α → Bool)
    (seen : List κ) (as : List α) (r : Bool × List κ) : Prop where
  subset : seen ⊆ r.2
  found : r.1 = true → ∃ a ∈ as, Reaches key children goal a
  settled : r.1 = false → ∀ a ∈ as, Settled key goal r.2 a
  /-- The keys it entered were searched to the end. -/
  closed : r.1 = false → ∀ k ∈ r.2, k ∉ seen → ∀ c ∈ children k, Settled key goal r.2 c

/-- One search after another. -/
theorem firstOf_outcome {f : α → List κ → Bool × List κ} {seen₀ : List κ}
    (hf : ∀ a seen, seen₀ ⊆ seen → Outcome key children goal seen [a] (f a seen)) {as : List α}
    {seen : List κ} (hsub : seen₀ ⊆ seen) :
    Outcome key children goal seen as (firstOf f as seen) := by
  induction as generalizing seen with
  | nil =>
    exact ⟨List.Subset.refl _, by simp [firstOf], by simp,
      fun _ k hk hnew => absurd hk hnew⟩
  | cons a as ih =>
    have hfirst := hf a seen hsub
    simp only [firstOf]
    cases hr : f a seen with
    | mk found seen' =>
      rw [hr] at hfirst
      cases found with
      | true =>
        refine ⟨hfirst.subset, fun _ => ?_, by simp, by simp⟩
        obtain ⟨b, hb, hreach⟩ := hfirst.found rfl
        exact ⟨a, List.mem_cons_self, List.mem_singleton.mp hb ▸ hreach⟩
      | false =>
        have hrest := ih (List.Subset.trans hsub hfirst.subset)
        refine ⟨List.Subset.trans hfirst.subset hrest.subset, fun h => ?_, fun h => ?_,
          fun h k hk hnew => ?_⟩
        · obtain ⟨b, hb, hreach⟩ := hrest.found h
          exact ⟨b, List.mem_cons_of_mem _ hb, hreach⟩
        · rw [List.forall_mem_cons]
          exact ⟨(hfirst.settled rfl a (List.mem_singleton_self a)).mono hrest.subset,
            hrest.settled h⟩
        · by_cases hmid : k ∈ seen'
          · intro c hc
            exact (hfirst.closed rfl k hmid hnew c hc).mono hrest.subset
          · exact hrest.closed h k hk hmid

variable {keys : List κ}

/-- Fuel for every key not entered yet is enough. -/
theorem search_outcome (hkeys : ∀ k, k ∉ keys → children k = []) {fuel : ℕ} {a : α}
    {seen : List κ} (h : Worklist.fresh id keys seen < fuel) :
    Outcome key children goal seen [a] (search key children goal fuel a seen) := by
  induction fuel generalizing a seen with
  | zero => exact absurd h (Nat.not_lt_zero _)
  | succ fuel ih =>
    simp only [search]
    cases hkey : key a with
    | none =>
      refine ⟨List.Subset.refl _, fun hgoal => ?_, fun hgoal => ?_, fun _ k hk hnew => absurd hk hnew⟩
      · exact ⟨a, List.mem_singleton_self a, a, .refl, hkey, hgoal⟩
      · rw [List.forall_mem_singleton]
        exact ⟨fun _ => hgoal, by simp [hkey]⟩
    | some k =>
      dsimp only
      by_cases hk : k ∈ seen
      · rw [if_pos hk]
        refine ⟨List.Subset.refl _, by simp, fun _ => ?_, fun _ j hj hnew => absurd hj hnew⟩
        rw [List.forall_mem_singleton]
        exact ⟨by simp [hkey], fun j hj => by rwa [← Option.some.inj (hkey.symm.trans hj)]⟩
      · rw [if_neg hk]
        have hinner : Outcome key children goal (k :: seen) (children k)
            (firstOf (search key children goal fuel) (children k) (k :: seen)) := by
          by_cases hmem : k ∈ keys
          · have hlt : Worklist.fresh id keys (k :: seen) < Worklist.fresh id keys seen :=
              Worklist.fresh_cons_lt hmem hk
            refine firstOf_outcome (fun c entered hentered => ih ?_) (List.Subset.refl (k :: seen))
            have hle : Worklist.fresh id keys entered ≤ Worklist.fresh id keys (k :: seen) :=
              Worklist.fresh_anti hentered
            omega
          · rw [hkeys k hmem]
            exact ⟨List.Subset.refl _, by simp [firstOf], by simp,
              fun _ j hj hnew => absurd hj hnew⟩
        refine ⟨List.Subset.trans (List.subset_cons_self k seen) hinner.subset, fun h => ?_,
          fun h => ?_, fun h j hj hnew => ?_⟩
        · obtain ⟨c, hc, b, hpath, hgoal⟩ := hinner.found h
          exact ⟨a, List.mem_singleton_self a, b, .head ⟨k, hkey, hc⟩ hpath, hgoal⟩
        · rw [List.forall_mem_singleton]
          refine ⟨by simp [hkey], fun j hj => ?_⟩
          rw [← Option.some.inj (hkey.symm.trans hj)]
          exact hinner.subset List.mem_cons_self
        · by_cases hjk : j = k
          · rw [hjk]
            exact hinner.settled h
          · exact hinner.closed h j hj (by simp [hjk, hnew])

/-- A search with nothing entered finds a goal exactly if one can be reached. -/
theorem search_iff_reaches (hkeys : ∀ k, k ∉ keys → children k = []) {fuel : ℕ} {a : α}
    (h : keys.length < fuel) :
    (search key children goal fuel a []).1 = true ↔ Reaches key children goal a := by
  have hfuel : Worklist.fresh id keys [] < fuel := Nat.lt_of_le_of_lt (List.length_filter_le _ _) h
  have hout : Outcome key children goal [] [a] (search key children goal fuel a []) :=
    search_outcome hkeys hfuel
  constructor
  · intro hfound
    obtain ⟨b, hb, hreach⟩ := hout.found hfound
    exact List.mem_singleton.mp hb ▸ hreach
  · rintro ⟨b, hpath, hnone, hgoal⟩
    by_contra hfound
    rw [Bool.not_eq_true] at hfound
    -- What was entered is closed under children, so everything on the path is settled.
    have hsettled : ∀ c, Relation.ReflTransGen (Child key children) a c →
        Settled key goal (search key children goal fuel a []).2 c := by
      intro c hc
      induction hc with
      | refl => exact hout.settled hfound a (List.mem_singleton_self a)
      | tail _ hchild ih =>
        obtain ⟨k, hk, hmem⟩ := hchild
        exact hout.closed hfound k (ih.2 k hk) List.not_mem_nil _ hmem
    rw [(hsettled b hpath).1 hnone] at hgoal
    cases hgoal

end GraphSearch
