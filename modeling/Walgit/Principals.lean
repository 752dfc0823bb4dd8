import Walgit.GraphSearch
import Walgit.Policy

/-!
# Whom an actor spec names

A group stands for its members. The search for the pusher enters each group once, and a group it
left without a match has none that it would find again.
-/
namespace Walgit.Policy

open Text

variable (p : RepoPolicy) (principal : List String)

/-- A spec by a name: the name itself, ignoring case. -/
def names (spec : String) : Bool :=
  !startsWith "@" spec && principal.any fun q => toAsciiLowercase spec == toAsciiLowercase q

def roster (name : String) : List String := ((p.group name).map Group.members).getD []

/-- A spec stands in the roster of a group that another one names. -/
def Member (spec member : String) : Prop :=
  ∃ name g, stripPrefix "group:" spec = some name ∧ p.group name = some g ∧ member ∈ g.members

variable {p principal}

theorem anyMatches_eq (f : String → List String → Bool × List String) :
    anyMatches f = GraphSearch.firstOf f := by
  funext ms seen
  induction ms generalizing seen with
  | nil => rfl
  | cons m ms ih =>
    simp only [anyMatches, GraphSearch.firstOf]
    cases hm : f m seen with
    | mk found seen' =>
      cases found with
      | true => rfl
      | false => exact ih seen'

theorem principalMatches_eq (fuel : ℕ) (spec : String) (seen : List String) :
    principalMatches p principal fuel spec seen =
      GraphSearch.search (stripPrefix "group:") (roster p) (names principal) fuel spec seen := by
  induction fuel generalizing spec seen with
  | zero => rfl
  | succ fuel ih =>
    simp only [principalMatches, GraphSearch.search, anyMatches_eq]
    have hsearch : principalMatches p principal fuel =
        GraphSearch.search (stripPrefix "group:") (roster p) (names principal) fuel := by
      funext spec seen
      exact ih spec seen
    cases hkey : stripPrefix "group:" spec with
    | some name =>
      dsimp only
      split_ifs with hseen
      · rfl
      · cases hgroup : p.group name with
        | none => simp [roster, hgroup, GraphSearch.firstOf]
        | some g => simp [roster, hgroup, hsearch]
    | none =>
      dsimp only
      split_ifs with htag
      · simp [names, htag]
      · simp [names, htag]

/-- Only the names of groups have rosters. -/
theorem roster_eq_nil {name : String} (h : name ∉ p.groups.map Group.name) :
    roster p name = [] := by
  cases hgroup : p.group name with
  | none => simp [roster, hgroup]
  | some g =>
    have hmem : g ∈ p.groups := List.mem_reverse.mp (List.mem_of_find?_eq_some hgroup)
    obtain rfl : g.name = name := by simpa using List.find?_some hgroup
    exact absurd (List.mem_map_of_mem hmem) h

theorem child_iff {spec member : String} :
    GraphSearch.Child (stripPrefix "group:") (roster p) spec member ↔ Member p spec member := by
  constructor
  · rintro ⟨name, hname, hmem⟩
    cases hgroup : p.group name with
    | none => simp [roster, hgroup] at hmem
    | some g => exact ⟨name, g, hname, hgroup, by simpa [roster, hgroup] using hmem⟩
  · rintro ⟨name, g, hname, hgroup, hmem⟩
    exact ⟨name, hname, by simpa [roster, hgroup] using hmem⟩

theorem stripPrefix_eq_none {pre s : String} :
    stripPrefix pre s = none ↔ startsWith pre s = false := by
  unfold stripPrefix
  split_ifs with h <;> simp [h]

theorem search_iff {fuel : ℕ} (hfuel : p.groups.length < fuel) (spec : String) :
    (principalMatches p principal fuel spec []).1 = true ↔
      ∃ s, Relation.ReflTransGen (Member p) spec s ∧ startsWith "group:" s = false ∧
        startsWith "@" s = false ∧ ∃ q ∈ principal, toAsciiLowercase s = toAsciiLowercase q := by
  have hchild : GraphSearch.Child (stripPrefix "group:") (roster p) = Member p :=
    funext fun _ => funext fun _ => propext child_iff
  rw [principalMatches_eq,
    GraphSearch.search_iff_reaches (fun _ => roster_eq_nil) (by simpa using hfuel)]
  refine exists_congr fun s => ?_
  rw [hchild, stripPrefix_eq_none]
  simp [names]

/-- A spec matches exactly if a name of the pusher, no tag and no group, can be reached from it
through rosters; and the search for it ends. -/
theorem admits_iff (p : RepoPolicy) (principal : List String) (spec : String) :
    (∀ fuel, p.groups.length < fuel →
      (principalMatches p principal fuel spec []).1 = admits p principal spec) ∧
    (admits p principal spec = true ↔ ∃ s, Relation.ReflTransGen (Member p) spec s ∧
      startsWith "group:" s = false ∧ startsWith "@" s = false ∧
      ∃ q ∈ principal, toAsciiLowercase s = toAsciiLowercase q) :=
  ⟨fun _ hfuel => admits_fuel hfuel spec, search_iff (Nat.lt_succ_self _) spec⟩

/-- A pusher whose name is spelled like a group is not found by it. -/
theorem admits_group_name :
    admits {} ["group:ops"] "group:ops" = false ∧
      ∃ s, Relation.ReflTransGen (Member {}) "group:ops" s ∧ startsWith "@" s = false ∧
        ∃ q ∈ ["group:ops"], toAsciiLowercase s = toAsciiLowercase q := by
  refine ⟨by decide, "group:ops", .refl, by decide, "group:ops", ?_, rfl⟩
  exact List.mem_singleton_self _

end Walgit.Policy
