import Walgit.Policy
import Walgit.Wildcards

/-!
# What a glob matches

The tokens of a pattern give its language. The matcher reads a wildcard for whole segments as one
for any text.
-/
namespace Walgit.Policy

open Wildcards (Token language segments Closed mem_language_cons)

/-- The tokens of a pattern; a `**` takes a slash behind it with it. -/
def tokens : List UInt8 → List (Token UInt8)
  | [] => []
  | p :: pat =>
    if p = star then
      match pat with
      | [] => [.run]
      | [q] => if q = star then [.any] else .run :: tokens [q]
      | q :: s :: rest =>
        if q ≠ star then .run :: tokens (q :: s :: rest)
        else if s = slash then .segments :: tokens rest
        else .any :: tokens (s :: rest)
    else if p = question then .one :: tokens pat
    else .literal p :: tokens pat

/-- Without wildcards. -/
def Plain (pat : String) : Prop := ∀ b ∈ bytes pat, b ≠ star ∧ b ≠ question

/-- The names of a pattern: `**/` stands for whole segments. -/
def InLanguage (pat text : String) : Prop :=
  bytes text ∈ language slash (segments slash) (tokens (bytes pat))

theorem mem_segmentTails {rest text : List UInt8} :
    rest ∈ segmentTails text ↔ ∃ part, slash ∉ part ∧ part ++ rest = text := by
  induction text with
  | nil =>
    simp only [segmentTails, List.mem_singleton, List.append_eq_nil_iff]
    exact ⟨fun h => ⟨[], by simp, rfl, h⟩, fun ⟨_, _, _, h⟩ => h⟩
  | cons b text ih =>
    rw [segmentTails, List.mem_cons]
    constructor
    · rintro (rfl | hrest)
      · exact ⟨[], by simp, rfl⟩
      · split_ifs at hrest with hb
        · cases hrest
        · obtain ⟨part, hpart, rfl⟩ := ih.mp hrest
          refine ⟨b :: part, ?_, rfl⟩
          rw [List.mem_cons, not_or]
          exact ⟨fun h => hb h.symm, hpart⟩
    · rintro ⟨part, hpart, heq⟩
      cases part with
      | nil => exact .inl heq
      | cons c part =>
        obtain ⟨rfl, rfl⟩ := List.cons.inj heq
        rw [List.mem_cons, not_or] at hpart
        rw [if_neg fun h => hpart.1 h.symm]
        exact .inr (ih.mpr ⟨part, hpart.2, rfl⟩)

theorem mem_run_cons {pat : List (Token UInt8)} {text : List UInt8} {S : Language UInt8} :
    text ∈ language slash S (.run :: pat) ↔ ∃ rest ∈ segmentTails text,
      rest ∈ language slash S pat := by
  simp only [mem_language_cons, mem_segmentTails]
  constructor
  · rintro ⟨part, hpart, rest, hrest, heq⟩
    exact ⟨rest, ⟨part, hpart, heq⟩, hrest⟩
  · rintro ⟨rest, ⟨part, hpart, heq⟩, hrest⟩
    exact ⟨part, hpart, rest, hrest, heq⟩

theorem mem_any_cons {token : Token UInt8} {S : Language UInt8}
    (h : token.language slash S = ⊤) {pat : List (Token UInt8)} {text : List UInt8} :
    text ∈ language slash S (token :: pat) ↔ ∃ rest ∈ text.tails, rest ∈ language slash S pat := by
  simp only [mem_language_cons, h, List.mem_tails]
  constructor
  · rintro ⟨part, -, rest, hrest, heq⟩
    exact ⟨rest, ⟨part, heq⟩, hrest⟩
  · rintro ⟨rest, ⟨part, heq⟩, hrest⟩
    exact ⟨part, trivial, rest, hrest, heq⟩

section Equations

variable {p q : UInt8} {pat : List UInt8} (text : List UInt8)

attribute [local simp] globBytes

theorem globBytes_run (h : pat.head? ≠ some star) :
    globBytes (star :: pat) text = (segmentTails text).any (globBytes pat) := by
  match pat with
  | [] => simp
  | [q] =>
    have hq : q ≠ star := by simpa using h
    simp [hq]
  | q :: s :: rest =>
    have hq : q ≠ star := by simpa using h
    simp [hq]

theorem any_tails_nil : text.tails.any (globBytes []) = true :=
  List.any_eq_true.mpr ⟨[], by simp, rfl⟩

theorem globBytes_segments :
    globBytes (star :: star :: slash :: pat) text = text.tails.any (globBytes pat) := by
  cases pat with
  | nil => simp
  | cons p pat => simp

theorem globBytes_any (h : pat.head? ≠ some slash) :
    globBytes (star :: star :: pat) text = text.tails.any (globBytes pat) := by
  cases pat with
  | nil => simp
  | cons s rest =>
    have hs : s ≠ slash := by simpa using h
    simp [hs]

theorem globBytes_symbol_nil (h : p ≠ star) : globBytes (p :: pat) [] = false := by
  rw [globBytes.eq_def]
  simp [h]

theorem globBytes_symbol_cons (h : p ≠ star) (b : UInt8) : globBytes (p :: pat) (b :: text) =
    ((if p = question then b ≠ slash else b = p) && globBytes pat text) := by
  rw [globBytes.eq_def]
  simp [h]

end Equations

/-- The matcher decides the language in which `**/` stands for any text. -/
theorem globBytes_iff (pat text : List UInt8) :
    globBytes pat text = true ↔ text ∈ language slash ⊤ (tokens pat) := by
  fun_induction tokens pat generalizing text with
  | case1 => simp [globBytes]
  | case2 =>
    rw [globBytes_run text (by simp), List.any_eq_true, mem_run_cons]
    simp [globBytes]
  | case3 =>
    rw [globBytes_any text (by simp), any_tails_nil, mem_any_cons rfl]
    exact iff_of_true rfl ⟨[], by simp, by simp⟩
  | case4 q hq ih =>
    rw [globBytes_run text (by simpa using hq), List.any_eq_true, mem_run_cons]
    simp only [ih]
  | case5 q s rest hq ih =>
    rw [globBytes_run text (by simpa using hq), List.any_eq_true, mem_run_cons]
    simp only [ih]
  | case6 q rest hq ih =>
    obtain rfl : q = star := by simpa using hq
    rw [globBytes_segments, List.any_eq_true, mem_any_cons rfl]
    simp only [ih]
  | case7 q s rest hq hs ih =>
    obtain rfl : q = star := by simpa using hq
    rw [globBytes_any text (by simpa using hs), List.any_eq_true, mem_any_cons rfl]
    simp only [ih]
  | case8 pat hstar ih =>
    rw [mem_language_cons]
    cases text with
    | nil =>
      rw [globBytes_symbol_nil hstar]
      refine iff_of_false (by simp) ?_
      rintro ⟨_, ⟨a, -, rfl⟩, rest, -, heq⟩
      cases heq
    | cons b text =>
      rw [globBytes_symbol_cons text hstar, if_pos rfl, Bool.and_eq_true, decide_eq_true_eq, ih]
      constructor
      · rintro ⟨hb, htext⟩
        exact ⟨[b], ⟨b, hb, rfl⟩, text, htext, rfl⟩
      · rintro ⟨_, ⟨a, ha, rfl⟩, rest, hrest, heq⟩
        obtain ⟨rfl, rfl⟩ := List.cons.inj heq
        exact ⟨ha, hrest⟩
  | case9 p pat hstar hquestion ih =>
    rw [mem_language_cons]
    cases text with
    | nil =>
      rw [globBytes_symbol_nil hstar]
      refine iff_of_false (by simp) ?_
      rintro ⟨_, rfl, rest, -, heq⟩
      cases heq
    | cons b text =>
      rw [globBytes_symbol_cons text hstar, if_neg hquestion, Bool.and_eq_true, decide_eq_true_eq,
        ih]
      constructor
      · rintro ⟨rfl, htext⟩
        exact ⟨[b], rfl, text, htext, rfl⟩
      · rintro ⟨_, rfl, rest, hrest, heq⟩
        obtain ⟨rfl, rfl⟩ := List.cons.inj heq
        exact ⟨rfl, hrest⟩

theorem bytes_injective {s t : String} (h : bytes s = bytes t) : s = t := by
  rw [← String.toByteArray_inj, ← String.ofList_toList (s := s), ← String.ofList_toList (s := t),
    String.toByteArray_ofList, String.toByteArray_ofList]
  exact congrArg List.toByteArray h

theorem globBytes_plain {pat : List UInt8} (h : ∀ p ∈ pat, p ≠ star ∧ p ≠ question)
    (text : List UInt8) : globBytes pat text = true ↔ text = pat := by
  induction pat generalizing text with
  | nil => simp [globBytes]
  | cons p pat ih =>
    rw [List.forall_mem_cons] at h
    cases text with
    | nil => simp [globBytes_symbol_nil h.1.1]
    | cons b text =>
      rw [globBytes_symbol_cons text h.1.1, if_neg h.1.2, Bool.and_eq_true, decide_eq_true_eq,
        ih h.2, List.cons.injEq]

theorem globMatch_eq (pat text : String) :
    globMatch pat text = globBytes (bytes pat) (bytes text) := by
  unfold globMatch
  split_ifs with hhead
  · rw [hhead, Bool.eq_iff_iff, beq_iff_eq, globBytes_plain (by decide +kernel)]
    exact ⟨congrArg bytes, bytes_injective⟩
  · rfl

/-- A name that can be cut along a pattern with any text for each `**/` can be cut so that each
of these texts is empty or ends with a slash. -/
def CutsClosed (pat text : String) : Prop :=
  bytes text ∈ language slash ⊤ (tokens (bytes pat)) →
    bytes text ∈ language slash {part | Closed slash part} (tokens (bytes pat))

/-- The matcher decides the language of a pattern for the names that the meaning of `**/` does
not tell apart, and so for all names of a pattern without it. -/
theorem globMatch_iff (pat text : String) :
    ((globMatch pat text = true ↔ InLanguage pat text) ↔ CutsClosed pat text) ∧
      (.segments ∉ tokens (bytes pat) → (globMatch pat text = true ↔ InLanguage pat text)) := by
  have hclosed : ({part | Closed slash part} : Language UInt8) = segments slash :=
    Set.ext fun _ => Wildcards.mem_segments_iff.symm
  have hloose : InLanguage pat text → globMatch pat text = true := by
    rw [globMatch_eq, globBytes_iff]
    exact fun h => Wildcards.language_mono le_top _ h
  have hiff : (globMatch pat text = true ↔ InLanguage pat text) ↔ CutsClosed pat text := by
    unfold CutsClosed
    rw [hclosed, ← globBytes_iff, ← globMatch_eq]
    exact ⟨Iff.mp, fun h => ⟨h, hloose⟩⟩
  refine ⟨hiff, fun hno => hiff.mpr fun h => ?_⟩
  rwa [Wildcards.language_congr hno] at h

theorem bytes_append (s t : String) : bytes (s ++ t) = bytes s ++ bytes t := by
  simp [bytes]

theorem tokens_plain {p : List UInt8} (h : ∀ b ∈ p, b ≠ star ∧ b ≠ question) (pat : List UInt8) :
    tokens (p ++ pat) = p.map .literal ++ tokens pat := by
  induction p with
  | nil => rfl
  | cons b p ih =>
    rw [List.forall_mem_cons] at h
    rw [List.cons_append, tokens.eq_def]
    simp [h.1.1, h.1.2, ih h.2]

/-- Between plain texts, `**/` takes what is empty or ends with a slash. -/
theorem inLanguage_between {before last : String} (hbefore : Plain before) (hlast : Plain last)
    (part : String) : InLanguage (before ++ "**/" ++ last) (before ++ part ++ last) ↔
      Closed slash (bytes part) := by
  have hend : tokens (bytes last) = (bytes last).map .literal := by
    have h := tokens_plain hlast []
    rwa [List.append_nil, tokens, List.append_nil] at h
  have htokens : tokens (bytes (before ++ "**/" ++ last)) =
      (bytes before).map .literal ++ (.segments :: (bytes last).map .literal) := by
    rw [bytes_append, bytes_append, List.append_assoc, tokens_plain hbefore, ← hend]
    rfl
  rw [InLanguage, htokens, bytes_append, bytes_append, List.append_assoc,
    Wildcards.mem_language_append, ← Wildcards.mem_segments_iff]
  constructor
  · rintro ⟨_, hstem, _, hrest, heq⟩
    obtain ⟨middle, hmiddle, _, hends, rfl⟩ := mem_language_cons.mp hrest
    rw [Wildcards.mem_language_literals.mp hstem, Wildcards.mem_language_literals.mp hends] at heq
    rwa [← List.append_cancel_right (List.append_cancel_left heq)]
  · intro h
    exact ⟨_, Wildcards.mem_language_literals.mpr rfl, _, mem_language_cons.mpr
      ⟨_, h, _, Wildcards.mem_language_literals.mpr rfl, rfl⟩, rfl⟩

/-- `**/` also takes the beginning of the last segment. -/
theorem globMatch_inside_segment :
    globMatch "refs/heads/**/ci" "refs/heads/xci" = true ∧
      ¬ InLanguage "refs/heads/**/ci" "refs/heads/xci" := by
  refine ⟨by decide +kernel, ?_⟩
  have hpat : "refs/heads/**/ci" = "refs/heads/" ++ "**/" ++ "ci" := by decide
  have hname : "refs/heads/xci" = "refs/heads/" ++ "x" ++ "ci" := by decide
  have hx : bytes "x" = [120] := by decide
  have hplain : ∀ s ∈ ["refs/heads/", "ci"], Plain s := by
    unfold Plain
    decide +kernel
  rw [hpat, hname, inLanguage_between (hplain _ (by simp)) (hplain _ (by simp)), hx]
  rintro (hnil | ⟨before, hends⟩)
  · cases hnil
  · have hlast := congrArg List.getLast? hends
    rw [List.getLast?_concat] at hlast
    simp [slash] at hlast

end Walgit.Policy
