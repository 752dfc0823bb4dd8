import Walgit.Principals

/-!
# Missing rosters

A group that is not in the table is indeterminate. An include of it admits nobody; an exclude of
it is meant to exclude everyone, also where the missing group is nested in another one.
-/
namespace Walgit.Policy

open Text

variable (p : RepoPolicy) (principal patterns : List String)

/-- A spec of a group without a roster. -/
def Missing (spec : String) : Prop :=
  ∃ name, stripPrefix "group:" spec = some name ∧ p.group name = none

/-- Resolving the members of a spec meets a group without a roster. -/
def Indeterminate (spec : String) : Prop :=
  ∃ s, Relation.ReflTransGen (Member p) spec s ∧ Missing p s

/-- A spelling of a pusher that a spec resolves to. -/
def Resolves (spec s : String) : Prop :=
  Relation.ReflTransGen (Member p) spec s ∧ startsWith "group:" s = false ∧
    startsWith "@" s = false

def Named (spec : String) : Prop :=
  ∃ s, Resolves p spec s ∧ ∃ q ∈ principal, toAsciiLowercase s = toAsciiLowercase q

def Includes (spec : String) : Prop := spec ∈ patterns ∧ stripPrefix "^" spec = none

def Excludes (spec : String) : Prop := ∃ e ∈ patterns, stripPrefix "^" e = some spec

/-- There are includes, and every pusher they resolve to is one an exclude resolves to. -/
def Covered : Prop :=
  (∃ i, Includes patterns i) ∧
    ∀ i s, Includes patterns i → Resolves p i s →
      ∃ e t, Excludes patterns e ∧ Resolves p e t ∧ toAsciiLowercase t = toAsciiLowercase s

/-- The law of indeterminate rosters for an actor list. -/
structure Lawful : Prop where
  exclude : (∃ e, Excludes patterns e ∧ Indeterminate p e) →
    ∀ principal, actorListMatches p principal patterns = false
  /-- Includes alone admit through the rosters that are there. -/
  include_ : ∀ principal, (∃ i, Includes patterns i) →
    (∀ i, Includes patterns i → Missing p i ∨ ¬ Named p principal i) →
      actorListMatches p principal patterns = false

variable {p principal patterns}

theorem admits_eq_true_iff {spec : String} :
    admits p principal spec = true ↔ Named p principal spec := by
  refine (search_iff (Nat.lt_succ_self _) spec).trans (exists_congr fun s => ?_)
  simp only [Resolves, and_assoc]

theorem Missing.not_named {spec : String} (h : Missing p spec) : ¬ Named p principal spec := by
  obtain ⟨name, hname, hgroup⟩ := h
  have hspec : startsWith "group:" spec = true := by
    by_contra hnot
    simp [stripPrefix, hnot] at hname
  intro ⟨s, ⟨hreach, hs, _⟩, _⟩
  rcases hreach.cases_head with rfl | ⟨member, ⟨name', g, hname', hgroup', _⟩, _⟩
  · rw [hspec] at hs
    cases hs
  · rw [hname] at hname'
    cases hname'
    rw [hgroup] at hgroup'
    cases hgroup'

/-- What an actor list admits. -/
theorem actorListMatches_iff :
    actorListMatches p principal patterns = true ↔
      ((∃ i, Includes patterns i ∧ Named p principal i) ∨ ¬ ∃ i, Includes patterns i) ∧
        ∀ e, Excludes patterns e → ¬ Missing p e ∧ ¬ Named p principal e := by
  have hincluded : ((patterns.filter fun s => (stripPrefix "^" s).isNone).any
      (admits p principal)) = true ↔ ∃ i, Includes patterns i ∧ Named p principal i := by
    simp [Includes, ← admits_eq_true_iff, and_assoc]
  have hempty : (patterns.filter fun s => (stripPrefix "^" s).isNone).isEmpty = true ↔
      ¬ ∃ i, Includes patterns i := by
    simp [Includes]
  have hexcluded : (patterns.any fun s => (stripPrefix "^" s).any fun spec =>
      (stripPrefix "group:" spec).any (fun name => (p.group name).isNone) ||
        admits p principal spec) = true ↔
      ∃ e, Excludes patterns e ∧ (Missing p e ∨ Named p principal e) := by
    simp only [List.any_eq_true, Option.any_eq_true, Bool.or_eq_true, admits_eq_true_iff,
      Option.isNone_iff_eq_none, Excludes, Missing]
    constructor
    · rintro ⟨s, hs, e, he, hit⟩
      exact ⟨e, ⟨s, hs, he⟩, hit⟩
    · rintro ⟨e, ⟨s, hs, he⟩, hit⟩
      exact ⟨s, hs, e, he, hit⟩
  simp only [actorListMatches, listMatches]
  rw [Bool.and_eq_true, Bool.or_eq_true, hincluded, hempty, Bool.not_eq_true', ← Bool.not_eq_true,
    hexcluded]
  simp only [not_exists, not_and, not_or]

/-- The lists that admit nobody. -/
theorem admits_nobody_iff :
    (∀ principal, actorListMatches p principal patterns = false) ↔
      (∃ e, Excludes patterns e ∧ Missing p e) ∨ Covered p patterns := by
  simp only [← Bool.not_eq_true, actorListMatches_iff]
  constructor
  · intro h
    by_cases hmissing : ∃ e, Excludes patterns e ∧ Missing p e
    · exact .inl hmissing
    have hpresent : ∀ e, Excludes patterns e → ¬ Missing p e :=
      fun e he hm => hmissing ⟨e, he, hm⟩
    refine .inr ⟨?_, fun i s hi hs => ?_⟩
    · -- Without includes a pusher of no name is admitted.
      by_contra hnone
      exact h [] ⟨.inr hnone, fun e he => ⟨hpresent e he, by simp [Named]⟩⟩
    · -- The pusher of that one name is admitted unless an exclude names it.
      by_contra hnone
      have hnamed : Named p [s] i := ⟨s, hs, s, List.mem_singleton_self s, rfl⟩
      refine h [s] ⟨.inl ⟨i, hi, hnamed⟩, fun e he => ⟨hpresent e he, ?_⟩⟩
      rintro ⟨t, ht, q, hq, heq⟩
      obtain rfl := List.mem_singleton.mp hq
      exact hnone ⟨e, t, he, ht, heq⟩
  · rintro (⟨e, he, hmissing⟩ | ⟨hinclude, hcovered⟩) principal ⟨hincluded, hexcluded⟩
    · exact (hexcluded e he).1 hmissing
    · rcases hincluded with ⟨i, hi, s, hs, q, hq, hsq⟩ | hnone
      · obtain ⟨e, t, he, ht, hts⟩ := hcovered i s hi hs
        exact (hexcluded e he).2 ⟨t, ht, q, hq, hts.trans hsq⟩
      · exact hnone hinclude

theorem missing_includes (hinclude : ∃ i, Includes patterns i)
    (h : ∀ i, Includes patterns i → Missing p i ∨ ¬ Named p principal i) :
    actorListMatches p principal patterns = false := by
  rw [← Bool.not_eq_true, actorListMatches_iff]
  rintro ⟨⟨i, hi, hnamed⟩ | hnone, _⟩
  · exact (h i hi).elim (fun hmissing => hmissing.not_named hnamed) (absurd hnamed)
  · exact hnone hinclude

/-- The law holds where an indeterminate exclude has a missing roster itself, or where the
excludes cover the includes anyway. -/
theorem lawful_iff (p : RepoPolicy) (patterns : List String) :
    Lawful p patterns ↔
      ((∃ e, Excludes patterns e ∧ Indeterminate p e) →
        (∃ e, Excludes patterns e ∧ Missing p e) ∨ Covered p patterns) := by
  constructor
  · exact fun h hindeterminate => admits_nobody_iff.mp (h.exclude hindeterminate)
  · intro h
    exact ⟨fun hindeterminate => admits_nobody_iff.mpr (h hindeterminate),
      fun _ => missing_includes⟩

/-- A group that stands for one without a roster. -/
def contractors : RepoPolicy :=
  { groups := [{ name := "contractors", members := ["group:vendors"] }] }

/-- Excluding the group leaves a pusher in that should be out. -/
theorem not_lawful_nested : ¬ Lawful contractors ["alice", "^group:contractors"] := by
  intro h
  have hmember : Member contractors "group:contractors" "group:vendors" :=
    ⟨"contractors", ⟨"contractors", ["group:vendors"]⟩, by decide, by decide, by decide⟩
  have hmissing : Missing contractors "group:vendors" := ⟨"vendors", by decide, by decide⟩
  have hfalse := h.exclude
    ⟨"group:contractors", ⟨"^group:contractors", by decide, by decide⟩,
      "group:vendors", .single hmember, hmissing⟩ ["alice"]
  exact absurd hfalse (by decide)

end Walgit.Policy
