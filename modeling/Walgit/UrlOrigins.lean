import Mathlib.Data.List.DropRight
import Mathlib.Data.Nat.Notation

/-!
# Where a browser goes

The part of URL parsing that decides which origin a reference leads to from a page of a special
scheme. What an authority names (its host, port and credentials) is a parameter.
-/
namespace UrlOrigin

structure Origin where
  scheme : String
  host : String
  port : ℕ
  deriving DecidableEq, Repr

def isC0OrSpace (c : Char) : Bool := c.toNat ≤ 32

def isTabOrNewline (c : Char) : Bool := c = '\t' || c = '\n' || c = '\r'

/-- The end of the text as the parser reads it. -/
def cleanedEnd (text : List Char) : List Char :=
  (text.rdropWhile isC0OrSpace).filter (!isTabOrNewline ·)

/-- What the parser reads: no controls or spaces around, no tabs and newlines within. -/
def cleaned (text : List Char) : List Char := cleanedEnd (text.dropWhile isC0OrSpace)

/-- A backslash counts as a slash. -/
def isSlash (c : Char) : Bool := c = '/' || c = '\\'

def specialSchemes : List String := ["ftp", "file", "http", "https", "ws", "wss"]

def isSchemeChar (c : Char) : Bool := c.isAlphanum || c = '+' || c = '-' || c = '.'

/-- The scheme of an absolute reference, and what follows its colon. -/
def schemeOf (text : List Char) : Option (String × List Char) :=
  match text with
  | [] => none
  | c :: _ =>
    if c.isAlpha then
      match text.dropWhile isSchemeChar with
      | ':' :: rest => some (String.ofList ((text.takeWhile isSchemeChar).map Char.toLower), rest)
      | _ => none
    else none

def endsAuthority (c : Char) : Bool := isSlash c || c = '?' || c = '#'

/-- The authority behind any number of slashes. -/
def authorityText (text : List Char) : List Char :=
  (text.dropWhile isSlash).takeWhile (!endsAuthority ·)

variable (authority : String → List Char → Option Origin)

/-- A reference without a scheme: two slashes of any kind begin an authority. -/
def relative (base : Origin) : List Char → Option Origin
  | c :: d :: rest =>
    if isSlash c && isSlash d then authority base.scheme (authorityText rest) else some base
  | _ => some base

/-- The origin a reference leads to; none if it cannot be parsed or has no such origin. -/
def resolve (base : Origin) (reference : List Char) : Option Origin :=
  match schemeOf (cleaned reference) with
  | none => relative authority base (cleaned reference)
  | some (scheme, rest) =>
    if scheme ∉ specialSchemes ∨ scheme = "file" then none
    else if scheme = base.scheme ∧ rest.take 2 ≠ ['/', '/'] then relative authority base rest
    else authority scheme (authorityText rest)

variable {authority : String → List Char → Option Origin} {base : Origin} {text rest : List Char}
  {c d : Char}

theorem rdropWhile_append {p : Char → Bool} {kept : List Char}
    (hkept : ∀ c ∈ kept, p c = false) :
    (kept ++ text).rdropWhile p = kept ++ text.rdropWhile p := by
  induction text using List.reverseRecOn with
  | nil =>
    rw [List.append_nil, List.rdropWhile_nil, List.append_nil, List.rdropWhile_eq_self_iff]
    intro hl
    simp [hkept _ (List.getLast_mem hl)]
  | append_singleton text c ih =>
    rw [← List.append_assoc, List.rdropWhile_concat, List.rdropWhile_concat]
    split
    · exact ih
    · exact List.append_assoc _ _ _

/-- Visible characters at the start are read as they stand. -/
theorem cleaned_append {visible text : List Char} (hne : visible ≠ [])
    (hvisible : ∀ c ∈ visible, 32 < c.toNat) :
    cleaned (visible ++ text) = visible ++ cleanedEnd text := by
  have hc0 : ∀ c ∈ visible, isC0OrSpace c = false := by
    intro c hc
    have := hvisible c hc
    simp [isC0OrSpace, this]
  have htab : ∀ c ∈ visible, (!isTabOrNewline c) = true := by
    intro c hc
    have := hvisible c hc
    simp only [isTabOrNewline, Bool.not_eq_true', Bool.or_eq_false_iff, decide_eq_false_iff_not]
    refine ⟨⟨?_, ?_⟩, ?_⟩ <;> rintro rfl <;> exact absurd this (by decide)
  have hdrop : (visible ++ text).dropWhile isC0OrSpace = visible ++ text := by
    cases visible with
    | nil => exact absurd rfl hne
    | cons c visible => exact List.dropWhile_cons_of_neg (by simp [hc0 c List.mem_cons_self])
  rw [cleaned, hdrop, cleanedEnd, rdropWhile_append hc0, List.filter_append,
    List.filter_eq_self.mpr htab]
  rfl

/-- A path leads away only by a second slash. -/
theorem resolve_path (htext : cleaned text = '/' :: rest) :
    resolve authority base text = relative authority base ('/' :: rest) := by
  have hscheme : schemeOf ('/' :: rest) = none := rfl
  rw [resolve, htext, hscheme]

theorem relative_slash : relative authority base ('/' :: d :: rest) =
    if isSlash d then authority base.scheme (authorityText rest) else some base := by
  rw [relative, isSlash.eq_def '/']
  simp

theorem authorityText_append {host tail : List Char} (hne : host ≠ [])
    (hhost : ∀ c ∈ host, endsAuthority c = false) :
    authorityText ('/' :: '/' :: (host ++ '/' :: tail)) = host := by
  have hall : ∀ c ∈ host, (!endsAuthority c) = true := fun c hc => by simp [hhost c hc]
  have hslash : isSlash '/' = true := rfl
  have hdrop : ('/' :: '/' :: (host ++ '/' :: tail)).dropWhile isSlash = host ++ '/' :: tail := by
    cases host with
    | nil => exact absurd rfl hne
    | cons c host =>
      have hc : isSlash c = false := by
        have := hhost c List.mem_cons_self
        simp only [endsAuthority, Bool.or_eq_false_iff] at this
        exact this.1.1
      simp [hslash, hc]
  rw [authorityText, hdrop, List.takeWhile_append_of_pos hall]
  simp [endsAuthority, hslash]

/-- A whole reference to a host leads to what its authority names. -/
theorem resolve_absolute {scheme : String} {host tail : List Char}
    (hscheme : scheme = "http" ∨ scheme = "https") (hne : host ≠ [])
    (hvisible : ∀ c ∈ host, 32 < c.toNat) (hhost : ∀ c ∈ host, endsAuthority c = false) :
    resolve authority base (scheme.toList ++ ':' :: '/' :: '/' :: (host ++ '/' :: tail)) =
      authority scheme host := by
  have hletters : scheme.toList.all (fun c => decide (32 < c.toNat)) = true := by
    rcases hscheme with rfl | rfl <;> decide
  have hstart : ∀ c ∈ scheme.toList ++ ':' :: '/' :: '/' :: (host ++ ['/']), 32 < c.toNat := by
    intro c hc
    simp only [List.mem_append, List.mem_cons, List.not_mem_nil, or_false] at hc
    rcases hc with hc | rfl | rfl | rfl | hc | rfl
    · exact of_decide_eq_true (List.all_eq_true.mp hletters c hc)
    · decide
    · decide
    · decide
    · exact hvisible c hc
    · decide
  have hclean : cleaned (_ ++ tail) = _ ++ cleanedEnd tail := cleaned_append (by simp) hstart
  simp only [List.append_assoc, List.cons_append, List.nil_append] at hclean
  have hread : ∀ rest, schemeOf (scheme.toList ++ ':' :: rest) = some (scheme, rest) := by
    intro rest
    rcases hscheme with rfl | rfl <;> rfl
  have hspecial : ¬ (scheme ∉ specialSchemes ∨ scheme = "file") := by
    rcases hscheme with rfl | rfl <;> decide
  rw [resolve, hclean, hread]
  dsimp only
  rw [if_neg hspecial, if_neg (by simp), authorityText_append hne hhost]

end UrlOrigin
