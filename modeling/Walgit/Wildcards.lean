import Mathlib.Computability.Language
import Mathlib.Order.CompletePartialOrder

/-!
# Patterns with wildcards

A pattern is a list of tokens, and its language the product of theirs. What the wildcard for
whole segments may stand for is a parameter.
-/
namespace Wildcards

open scoped Computability

variable {α : Type*}

inductive Token (α : Type*) where
  /-- One symbol, not the separator. -/
  | one
  /-- Any symbols but the separator. -/
  | run
  | segments
  /-- Any symbols. -/
  | any
  | literal (a : α)
  deriving DecidableEq, Repr

variable (sep : α) (S : Language α)

/-- The parts of a text that a token may stand for. -/
def Token.language : Token α → Language α
  | one => {part | ∃ a, a ≠ sep ∧ part = [a]}
  | run => {part | sep ∉ part}
  | segments => S
  | any => ⊤
  | literal a => {[a]}

def language (tokens : List (Token α)) : Language α := (tokens.map (Token.language sep S)).prod

/-- A whole segment and the separator that ends it. -/
def segment : Language α := {part | ∃ name, sep ∉ name ∧ part = name ++ [sep]}

def segments : Language α := (segment sep)∗

/-- Nothing, or something that ends with the separator. -/
def Closed (part : List α) : Prop := part = [] ∨ ∃ before, part = before ++ [sep]

variable {sep S} {S' : Language α}

@[simp] theorem mem_language_nil {text : List α} : text ∈ language sep S [] ↔ text = [] :=
  Language.mem_one text

theorem mem_language_cons {token : Token α} {tokens : List (Token α)} {text : List α} :
    text ∈ language sep S (token :: tokens) ↔ ∃ part ∈ token.language sep S,
      ∃ rest ∈ language sep S tokens, part ++ rest = text := by
  rw [language, List.map_cons, List.prod_cons]
  exact Language.mem_mul

theorem mem_language_append {tokens tokens' : List (Token α)} {text : List α} :
    text ∈ language sep S (tokens ++ tokens') ↔ ∃ part ∈ language sep S tokens,
      ∃ rest ∈ language sep S tokens', part ++ rest = text := by
  rw [language, List.map_append, List.prod_append]
  exact Language.mem_mul

/-- Literals are matched by themselves. -/
theorem mem_language_literals {as text : List α} :
    text ∈ language sep S (as.map Token.literal) ↔ text = as := by
  induction as generalizing text with
  | nil => exact mem_language_nil
  | cons a as ih =>
    rw [List.map_cons, mem_language_cons]
    constructor
    · rintro ⟨_, rfl, rest, hrest, rfl⟩
      rw [ih.mp hrest]
      rfl
    · rintro rfl
      exact ⟨[a], rfl, as, ih.mpr rfl, rfl⟩

theorem concat_mem_segments (before : List α) : before ++ [sep] ∈ segments sep := by
  induction before with
  | nil =>
    refine Language.mem_kstar.mpr ⟨[[sep]], rfl, fun part h => ?_⟩
    rw [List.mem_singleton.mp h]
    exact ⟨[], by simp, rfl⟩
  | cons a before ih =>
    obtain ⟨parts, hparts, hall⟩ := Language.mem_kstar.mp ih
    by_cases ha : a = sep
    · refine Language.mem_kstar.mpr ⟨[sep] :: parts, by simp [ha, hparts], ?_⟩
      rw [List.forall_mem_cons]
      exact ⟨⟨[], by simp, rfl⟩, hall⟩
    · -- The symbol goes to the front of the first segment.
      cases parts with
      | nil => simp at hparts
      | cons part parts =>
        rw [List.forall_mem_cons] at hall
        obtain ⟨⟨name, hname, rfl⟩, hrest⟩ := hall
        refine Language.mem_kstar.mpr ⟨(a :: name ++ [sep]) :: parts, by simp [hparts], ?_⟩
        rw [List.forall_mem_cons]
        refine ⟨⟨a :: name, ?_, rfl⟩, hrest⟩
        rw [List.mem_cons, not_or]
        exact ⟨fun h => ha h.symm, hname⟩

/-- Whole segments are whatever ends where a segment does. -/
theorem mem_segments_iff {part : List α} : part ∈ segments sep ↔ Closed sep part := by
  constructor
  · intro h
    obtain ⟨parts, rfl, hall⟩ := Language.mem_kstar.mp h
    rcases List.eq_nil_or_concat parts with rfl | ⟨init, last, rfl⟩
    · exact .inl rfl
    · obtain ⟨name, -, rfl⟩ := hall last (by simp)
      exact .inr ⟨init.flatten ++ name, by simp⟩
  · rintro (rfl | ⟨before, rfl⟩)
    · exact Language.nil_mem_kstar _
    · exact concat_mem_segments before

/-- If the wildcard for segments stands for no less, neither does a pattern. -/
theorem language_mono (h : S ≤ S') (tokens : List (Token α)) :
    language sep S tokens ≤ language sep S' tokens := by
  induction tokens with
  | nil => exact le_rfl
  | cons token tokens ih =>
    intro text htext
    obtain ⟨part, hpart, rest, hrest, heq⟩ := mem_language_cons.mp htext
    refine mem_language_cons.mpr ⟨part, ?_, rest, ih hrest, heq⟩
    cases token with
    | segments => exact h hpart
    | one => exact hpart
    | run => exact hpart
    | any => exact hpart
    | literal a => exact hpart

/-- Without that wildcard it does not matter what it stands for. -/
theorem language_congr {tokens : List (Token α)} (h : .segments ∉ tokens) :
    language sep S tokens = language sep S' tokens := by
  refine congrArg List.prod (List.map_congr_left fun token htoken => ?_)
  cases token with
  | segments => exact absurd htoken h
  | one => rfl
  | run => rfl
  | any => rfl
  | literal a => rfl

end Wildcards
