import Walgit.Globs

/-!
# Patterns that may overlap

Two lists of patterns are compared by testing each pattern on what is left of another without
its trailing wildcards.
-/
namespace Walgit.Policy

open Text
open Wildcards (Token language mem_language_cons)

/-- `trim_end_matches` with one character. -/
def trimEndMatches (c : Char) (s : String) : String :=
  String.ofList (s.toList.reverse.dropWhile (· == c)).reverse

/-- A pattern without its trailing stars and the slashes before them. -/
def stem (pat : String) : String := trimEndMatches '/' (trimEndMatches '*' pat)

def globMayOverlap (a b : String) : Bool :=
  a == b || globMatch a (stem b) || globMatch b (stem a) || contains "**" a || contains "**" b

def inclusions (patterns : List String) : List String := patterns.filter (!startsWith "^" ·)

def refPatternsMayOverlap (a b : List String) : Bool :=
  a.isEmpty || b.isEmpty ||
    let ia := inclusions a
    let ib := inclusions b
    ia.isEmpty || ib.isEmpty || ia.any fun x => ib.any fun y => globMayOverlap x y

/-- Some name matches both lists. -/
def Share (a b : List String) : Prop :=
  ∃ name, patternListMatches a name = true ∧ patternListMatches b name = true

/-- Two patterns are equal, one contains `**`, or one matches what is left of the other. -/
def Caught (x y : String) : Prop :=
  x = y ∨ contains "**" x = true ∨ contains "**" y = true ∨ globMatch x (stem y) = true ∨
    globMatch y (stem x) = true

/-- One of two patterns is plain, or both are up to one star at their end. -/
def Simple (x y : String) : Prop :=
  Plain x ∨ Plain y ∨ ∃ p q, Plain p ∧ Plain q ∧ x = p ++ "*" ∧ y = q ++ "*"

/-- The last character of a text is also its last bytes. -/
theorem bytes_of_last {s : String} {c : Char} (h : s.toList.getLast? = some c) :
    ∃ before, bytes s = before ++ String.utf8EncodeChar c := by
  obtain ⟨before, hs⟩ := List.getLast?_eq_some_iff.mp h
  exact ⟨before.flatMap String.utf8EncodeChar, by simp [bytes, hs]⟩

theorem trimEndMatches_of_last {c : Char} {s : String} (h : s.toList.getLast? ≠ some c) :
    trimEndMatches c s = s := by
  have hkeep : s.toList.reverse.dropWhile (· == c) = s.toList.reverse := by
    cases hrev : s.toList.reverse with
    | nil => rfl
    | cons d rest =>
      have hd : d ≠ c := by
        rintro rfl
        exact h (by rw [List.getLast?_eq_head?_reverse, hrev]; rfl)
      simp [hd]
  rw [trimEndMatches, hkeep, List.reverse_reverse, String.ofList_toList]

theorem trimEndMatches_append (s : String) : trimEndMatches '*' (s ++ "*") = trimEndMatches '*' s := by
  simp [trimEndMatches]

theorem Plain.last_ne {p : String} (h : Plain p) : p.toList.getLast? ≠ some '*' := by
  intro hlast
  obtain ⟨before, hbytes⟩ := bytes_of_last hlast
  have hmem : star ∈ bytes p := by
    rw [hbytes]
    exact List.mem_append_right _ (by decide)
  exact (h star hmem).1 rfl

/-- A plain name that does not end with a slash is its own stem. -/
theorem Plain.stem_eq {p : String} (h : Plain p) (hlast : p.toList.getLast? ≠ some '/') :
    stem p = p := by
  rw [stem, trimEndMatches_of_last h.last_ne, trimEndMatches_of_last hlast]

theorem Plain.stem_append {p : String} (h : Plain p) (hlast : p.toList.getLast? ≠ some '/') :
    stem (p ++ "*") = p := by
  rw [stem, trimEndMatches_append, trimEndMatches_of_last h.last_ne, trimEndMatches_of_last hlast]

theorem Plain.matches_iff {p name : String} (h : Plain p) :
    globMatch p name = true ↔ name = p := by
  rw [globMatch_eq, globBytes_plain h]
  exact ⟨bytes_injective, congrArg bytes⟩

/-- A pattern up to a star matches what continues it within the segment. -/
theorem Plain.globMatch_append_iff {p name : String} (h : Plain p) :
    globMatch (p ++ "*") name = true ↔ ∃ rest, slash ∉ rest ∧ bytes name = bytes p ++ rest := by
  have htokens : tokens (bytes (p ++ "*")) = (bytes p).map .literal ++ [.run] := by
    rw [bytes_append, tokens_plain h]
    rfl
  rw [globMatch_eq, globBytes_iff, htokens, Wildcards.mem_language_append]
  constructor
  · rintro ⟨_, hstem, rest, hrest, heq⟩
    rw [Wildcards.mem_language_literals] at hstem
    obtain ⟨part, hpart, _, hend, rfl⟩ := mem_language_cons.mp hrest
    rw [Wildcards.mem_language_nil.mp hend, List.append_nil] at heq
    exact ⟨part, hpart, by rw [← heq, hstem]⟩
  · rintro ⟨rest, hrest, heq⟩
    refine ⟨bytes p, Wildcards.mem_language_literals.mpr rfl, rest, ?_, heq.symm⟩
    exact mem_language_cons.mpr ⟨rest, hrest, [], Wildcards.mem_language_nil.mpr rfl, by simp⟩

/-- Of two patterns up to a star that share a name, the shorter matches the longer's stem. -/
theorem caught_of_append {p q : String} (hp : Plain p) (hq : Plain q)
    {rest : List UInt8} (hrest : slash ∉ rest) (heq : bytes p = bytes q ++ rest) :
    Caught (q ++ "*") (p ++ "*") := by
  by_cases hnil : rest = []
  · rw [hnil, List.append_nil] at heq
    exact .inl (by rw [bytes_injective heq])
  · have hlast : p.toList.getLast? ≠ some '/' := by
      intro hslash
      obtain ⟨before, hbytes⟩ := bytes_of_last hslash
      have hends : rest.getLast? = some slash := by
        rw [← List.getLast?_append_of_ne_nil (bytes q) hnil, ← heq, hbytes]
        exact List.getLast?_concat
      exact hrest (List.mem_of_getLast? hends)
    refine .inr (.inr (.inr (.inl ?_)))
    rw [hp.stem_append hlast, hq.globMatch_append_iff]
    exact ⟨rest, hrest, heq⟩

theorem Caught.symm {x y : String} (h : Caught x y) : Caught y x := by
  rcases h with heq | hx | hy | hmatch | hmatch
  · exact .inl heq.symm
  · exact .inr (.inr (.inl hx))
  · exact .inr (.inl hy)
  · exact .inr (.inr (.inr (.inr hmatch)))
  · exact .inr (.inr (.inr (.inl hmatch)))

/-- Simple patterns that share a name are found to. -/
theorem caught_of_simple {x y name : String} (h : Simple x y)
    (hname : name.toList.getLast? ≠ some '/') (hx : globMatch x name = true)
    (hy : globMatch y name = true) : Caught x y := by
  rcases h with hplain | hplain | ⟨p, q, hp, hq, rfl, rfl⟩
  · obtain rfl := hplain.matches_iff.mp hx
    exact .inr (.inr (.inr (.inr (by rwa [hplain.stem_eq hname]))))
  · obtain rfl := hplain.matches_iff.mp hy
    exact .inr (.inr (.inr (.inl (by rwa [hplain.stem_eq hname]))))
  · obtain ⟨u, hu, hpu⟩ := hp.globMatch_append_iff.mp hx
    obtain ⟨v, hv, hqv⟩ := hq.globMatch_append_iff.mp hy
    have hsame := hpu.symm.trans hqv
    rcases List.append_eq_append_iff.mp hsame with ⟨w, hw, hrest⟩ | ⟨w, hw, hrest⟩
    · refine caught_of_append hq hp (fun hmem => hu ?_) hw
      rw [hrest]
      exact List.mem_append_left _ hmem
    · refine (caught_of_append hp hq (fun hmem => hv ?_) hw).symm
      rw [hrest]
      exact List.mem_append_left _ hmem

theorem globMayOverlap_iff {x y : String} : globMayOverlap x y = true ↔ Caught x y := by
  simp only [globMayOverlap, Bool.or_eq_true, beq_iff_eq, Caught]
  tauto

theorem refPatternsMayOverlap_eq_true {a b : List String} : refPatternsMayOverlap a b = true ↔
    inclusions a = [] ∨ inclusions b = [] ∨
      ∃ x ∈ inclusions a, ∃ y ∈ inclusions b, Caught x y := by
  have hempty : ∀ l : List String, l.isEmpty = true → inclusions l = [] := by
    intro l hl
    rw [List.isEmpty_iff.mp hl]
    rfl
  simp only [refPatternsMayOverlap, Bool.or_eq_true, List.isEmpty_iff, List.any_eq_true,
    globMayOverlap_iff]
  constructor
  · rintro ((rfl | rfl) | (h | h) | h)
    · exact .inl rfl
    · exact .inr (.inl rfl)
    · exact .inl h
    · exact .inr (.inl h)
    · exact .inr (.inr h)
  · rintro (h | h | h)
    · exact .inr (.inl (.inl h))
    · exact .inr (.inl (.inr h))
    · exact .inr (.inr h)

/-- A name that matches a list matches one of its inclusions, if it has any. -/
theorem exists_inclusion {patterns : List String} {name : String}
    (h : patternListMatches patterns name = true) :
    inclusions patterns = [] ∨ ∃ x ∈ inclusions patterns, globMatch x name = true := by
  have hsame : (patterns.filter fun p => (stripPrefix "^" p).isNone) = inclusions patterns := by
    refine List.filter_congr fun p _ => ?_
    unfold stripPrefix
    split_ifs with hp <;> simp [hp]
  simp only [patternListMatches, listMatches, hsame, Bool.and_eq_true, Bool.or_eq_true,
    List.any_eq_true, List.isEmpty_iff] at h
  exact h.1.symm

end Walgit.Policy
