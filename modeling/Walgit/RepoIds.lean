import Walgit.Credentials

/-!
# Repository ids

An id is parsed from `owner/name`, with or without `.git`, and names the prefix of its objects in
the store. The prefixes keep repositories apart. The registry reads ids back from prefixes, which
loses a name that ends in `.git` itself.
-/
namespace Walgit

open Text

namespace RepoId

def systemOwner : String := ".system"

/-- `strip_suffix`. -/
def stripSuffix (p s : List Char) : Option (List Char) :=
  if p.isSuffixOf s then some (s.take (s.length - p.length)) else none

def parse (s : String) : Except String RepoId := do
  let s := Receive.trim s.toList
  let s := (stripSuffix ".git".toList s).getD s
  match Auth.splitOnce '/' s with
  | none => throw "invalid input: RepoId must be 'owner/name'"
  | some (owner, name) =>
    if owner.isEmpty || name.isEmpty then throw "invalid input: RepoId parts must be non-empty"
    repoIdNew (String.ofList owner) (String.ofList name)
    .ok ⟨String.ofList owner, String.ofList name⟩

/-- The prefix of the objects; a system log has one that no parsed id has. -/
def storePrefix (id : RepoId) : String :=
  if id.owner = systemOwner then "system/" ++ id.name ++ "/"
  else "repos/" ++ id.owner ++ "/" ++ id.name ++ "/"

/-- The id `list_uncached` finds for a prefix of the store. -/
def listed (key : String) : Option RepoId := do
  let s ← Auth.stripPrefix "repos/" key
  let s ← stripSuffix ['/'] s.toList
  (parse (String.ofList s)).toOption

section Parts

def partChar (c : Char) : Bool := c.isAlphanum || c == '.' || c == '_' || c == '-'

/-- A half of an id that is accepted. -/
structure Part (s : String) : Prop where
  nonempty : s ≠ ""
  short : s.utf8ByteSize ≤ 100
  visible : startsWith "." s = false
  chars : ∀ c ∈ s.toList, partChar c = true

theorem validatePart_ok {s what : String} : validatePart s what = .ok () ↔ Part s := by
  simp only [validatePart, Checks.guard_ok, Checks.last_ok, Bool.or_eq_true, decide_eq_true_eq,
    not_or, Nat.not_lt, Bool.not_eq_true, Bool.not_eq_false', List.all_eq_true, pure, Except.pure,
    and_true]
  constructor
  · rintro ⟨⟨hempty, hsize⟩, -, hdot, hchars⟩
    exact ⟨hempty, hsize, hdot, fun c hc => by simpa [partChar] using hchars c hc⟩
  · rintro ⟨hempty, hsize, hdot, hchars⟩
    refine ⟨⟨hempty, hsize⟩, ?_, hdot, fun c hc => by simpa [partChar] using hchars c hc⟩
    rintro rfl
    exact absurd hdot (by decide)

/-- Both halves are accepted. -/
def Valid (id : RepoId) : Prop := Part id.owner ∧ Part id.name

theorem repoIdNew_ok {owner name : String} :
    repoIdNew owner name = .ok () ↔ Part owner ∧ Part name := by
  rw [repoIdNew, Checks.check_ok, validatePart_ok, validatePart_ok]

theorem partChar_range {c : Char} (h : partChar c = true) :
    45 ≤ c.toNat ∧ c.toNat ≤ 122 ∧ c.toNat ≠ 47 := by
  delta partChar Char.isAlphanum Char.isAlpha Char.isUpper Char.isLower Char.isDigit at h
  simp only [Bool.or_eq_true, Bool.and_eq_true, decide_eq_true_eq, beq_iff_eq, ge_iff_le,
    UInt32.le_iff_toNat_le] at h
  have hval : c.toNat = c.val.toNat := rfl
  rcases h with (((((h | h) | h) | rfl) | rfl) | rfl)
  · simp at h
    omega
  · simp at h
    omega
  · simp at h
    omega
  · decide
  · decide
  · decide

theorem slash_not_mem {s : String} (h : Part s) : '/' ∉ s.toList := fun hmem =>
  (partChar_range (h.chars _ hmem)).2.2 rfl

theorem partChar_visible {c : Char} (h : partChar c = true) : isWhitespace c = false := by
  have hrange := partChar_range h
  simp only [isWhitespace, decide_eq_false_iff_not]
  omega

end Parts

section Prefixes

variable {id id' : RepoId}

theorem storePrefix_valid (h : id.Valid) :
    id.storePrefix = "repos/" ++ id.owner ++ "/" ++ id.name ++ "/" := by
  refine if_neg fun howner => ?_
  have hvisible := h.1.visible
  rw [howner] at hvisible
  exact absurd hvisible (by decide)

/-- A prefix that starts another one is that one. -/
theorem storePrefix_inj (h : id.Valid) (h' : id'.Valid)
    (hstart : id.storePrefix.toList <+: id'.storePrefix.toList) : id = id' := by
  obtain ⟨rest, hrest⟩ := hstart
  have hslash : "/".toList = ['/'] := rfl
  rw [storePrefix_valid h, storePrefix_valid h'] at hrest
  simp only [String.toList_append, List.append_assoc, List.append_cancel_left_eq, hslash,
    List.cons_append, List.nil_append] at hrest
  have howner := congrArg (Auth.splitOnce '/') hrest
  rw [Auth.splitOnce_append (slash_not_mem h.1), Auth.splitOnce_append (slash_not_mem h'.1),
    Option.some.injEq, Prod.mk.injEq] at howner
  have hname := congrArg (Auth.splitOnce '/') howner.2
  rw [Auth.splitOnce_append (slash_not_mem h.2), Auth.splitOnce_append (slash_not_mem h'.2),
    Option.some.injEq, Prod.mk.injEq] at hname
  cases id
  cases id'
  rw [RepoId.mk.injEq]
  exact ⟨String.toList_injective howner.1, String.toList_injective hname.1⟩

end Prefixes

section RoundTrip

theorem splitOnce_eq_some {sep : Char} {s a b : List Char} :
    Auth.splitOnce sep s = some (a, b) ↔ s = a ++ sep :: b ∧ sep ∉ a := by
  constructor
  · intro h
    have hmem : sep ∈ s := by
      by_contra hnot
      rw [Auth.splitOnce, if_neg hnot] at h
      cases h
    obtain ⟨as, bs, rfl, has⟩ := List.eq_append_cons_of_mem hmem
    rw [Auth.splitOnce_append has, Option.some.injEq, Prod.mk.injEq] at h
    exact ⟨by rw [h.1, h.2], h.1 ▸ has⟩
  · rintro ⟨rfl, ha⟩
    exact Auth.splitOnce_append ha

theorem dropWhile_visible {s : List Char} (h : ∀ c ∈ s, isWhitespace c = false) :
    s.dropWhile isWhitespace = s := by
  cases s with
  | nil => rfl
  | cons c s => exact List.dropWhile_cons_of_neg (by simp [h c List.mem_cons_self])

theorem trim_visible {s : List Char} (h : ∀ c ∈ s, isWhitespace c = false) :
    Receive.trim s = s := by
  rw [Receive.trim, dropWhile_visible h,
    dropWhile_visible fun c hc => h c (List.mem_reverse.mp hc), List.reverse_reverse]

/-- An accepted id is what the text is split into once it is trimmed and stripped. -/
theorem parse_ok {s : String} {id : RepoId} : parse s = .ok id ↔
    id.Valid ∧ (stripSuffix ".git".toList (Receive.trim s.toList)).getD (Receive.trim s.toList) =
      id.text.toList := by
  have htext : id.text.toList = id.owner.toList ++ '/' :: id.name.toList := by
    simp [RepoId.text]
  rw [parse, htext]
  dsimp only
  generalize (stripSuffix ".git".toList (Receive.trim s.toList)).getD (Receive.trim s.toList) = t
  constructor
  · intro h
    cases hsplit : Auth.splitOnce '/' t with
    | none =>
      rw [hsplit] at h
      cases h
    | some p =>
      obtain ⟨owner, name⟩ := p
      rw [hsplit] at h
      simp only [Checks.guard_ok, Checks.check_ok, repoIdNew_ok, Except.ok.injEq] at h
      obtain ⟨-, hvalid, rfl⟩ := h
      refine ⟨hvalid, ?_⟩
      rw [String.toList_ofList, String.toList_ofList]
      exact (splitOnce_eq_some.mp hsplit).1
  · rintro ⟨hvalid, rfl⟩
    rw [Auth.splitOnce_append (slash_not_mem hvalid.1)]
    simp only [Checks.guard_ok, Checks.check_ok, repoIdNew_ok, String.ofList_toList,
      Bool.or_eq_true, List.isEmpty_iff, String.toList_eq_nil_iff, not_or]
    exact ⟨⟨hvalid.1.nonempty, hvalid.2.nonempty⟩, hvalid, trivial⟩

/-- A suffix without the separator is one of what follows the separator. -/
theorem isSuffix_append_cons {α : Type} {p a b : List α} {sep : α} (h : sep ∉ p) :
    p <:+ a ++ sep :: b ↔ p <:+ b := by
  constructor
  · intro hp
    rcases List.suffix_or_suffix_of_suffix hp (List.suffix_append a (sep :: b)) with hin | hout
    · rcases List.suffix_cons_iff.mp hin with heq | hb
      · exact absurd (heq ▸ List.mem_cons_self) h
      · exact hb
    · exact absurd (hout.subset List.mem_cons_self) h
  · exact fun hp => hp.trans ((List.suffix_cons sep b).trans (List.suffix_append a _))

/-- The displayed form is parsed to the same id exactly if the name does not end in `.git`. -/
theorem parse_text {id : RepoId} (h : id.Valid) :
    parse id.text = .ok id ↔ endsWith ".git" id.name = false := by
  have htext : id.text.toList = id.owner.toList ++ '/' :: id.name.toList := by
    simp [RepoId.text]
  have hvisible : ∀ c ∈ id.text.toList, isWhitespace c = false := by
    intro c hc
    rw [htext, List.mem_append, List.mem_cons] at hc
    rcases hc with howner | rfl | hname
    · exact partChar_visible (h.1.chars c howner)
    · rfl
    · exact partChar_visible (h.2.chars c hname)
  have hsuffix : ".git".toList.isSuffixOf id.text.toList = endsWith ".git" id.name := by
    rw [endsWith, Bool.eq_iff_iff, List.isSuffixOf_iff_suffix, List.isSuffixOf_iff_suffix, htext,
      isSuffix_append_cons (by decide)]
  rw [parse_ok, trim_visible hvisible, stripSuffix, hsuffix]
  cases hgit : endsWith ".git" id.name with
  | false => exact iff_of_true ⟨h, rfl⟩ rfl
  | true =>
    refine iff_of_false (fun hsame => ?_) Bool.noConfusion
    have hlength := congrArg List.length hsame.2
    have hpos : 0 < id.text.toList.length := by simp [htext]
    simp only [if_true, Option.getD_some, List.length_take] at hlength
    have hfour : ".git".toList.length = 4 := rfl
    omega

/-- The prefixes of two accepted ids do not meet. An id is read back from what is displayed of it
exactly if its name does not end in `.git`. -/
theorem roundTrip_iff {s : String} {id : RepoId} (h : parse s = .ok id) :
    (parse id.text = .ok id ∧ ∀ s' id', parse s' = .ok id' → id ≠ id' →
      ¬ id.storePrefix.toList <+: id'.storePrefix.toList ∧
        ¬ id'.storePrefix.toList <+: id.storePrefix.toList) ↔
      endsWith ".git" id.name = false := by
  have hvalid := (parse_ok.mp h).1
  rw [parse_text hvalid, and_iff_left]
  intro s' id' h' hne
  have hvalid' := (parse_ok.mp h').1
  exact ⟨fun hstart => hne (storePrefix_inj hvalid hvalid' hstart),
    fun hstart => hne (storePrefix_inj hvalid' hvalid hstart).symm⟩

theorem stripSuffix_append (p s : List Char) : stripSuffix p (s ++ p) = some s := by
  have hend : p.isSuffixOf (s ++ p) = true :=
    List.isSuffixOf_iff_suffix.mpr (List.suffix_append s p)
  rw [stripSuffix, if_pos hend, List.length_append, Nat.add_sub_cancel, List.take_left]

/-- The registry parses what is displayed of an id. -/
theorem listed_eq {id : RepoId} (h : id.Valid) :
    listed id.storePrefix = (parse id.text).toOption := by
  have hprefix : id.storePrefix = "repos/" ++ (id.text ++ "/") := by
    simp only [storePrefix_valid h, text, String.append_assoc]
  have hslash : (id.text ++ "/").toList = id.text.toList ++ ['/'] := String.toList_append
  rw [listed, hprefix, Auth.stripPrefix_append]
  simp only [bind, Option.bind, hslash, stripSuffix_append, String.ofList_toList]

theorem valid_widgets : Valid ⟨"acme", "widgets"⟩ :=
  ⟨⟨by decide, by decide, by decide, List.all_eq_true.mp (by decide)⟩,
    ⟨by decide, by decide, by decide, List.all_eq_true.mp (by decide)⟩⟩

theorem roundTrip_plain :
    parse "acme/widgets.git" = .ok ⟨"acme", "widgets"⟩ ∧
      parse (RepoId.text ⟨"acme", "widgets"⟩) = .ok ⟨"acme", "widgets"⟩ := by
  have hparse : parse "acme/widgets.git" = .ok ⟨"acme", "widgets"⟩ :=
    parse_ok.mpr ⟨valid_widgets, by decide⟩
  exact ⟨hparse, ((roundTrip_iff hparse).mpr (by decide)).1⟩

/-- A repository is displayed, and listed, as another one. -/
theorem parse_text_git :
    parse "acme/widgets.git.git" = .ok ⟨"acme", "widgets.git"⟩ ∧
      parse (RepoId.text ⟨"acme", "widgets.git"⟩) = .ok ⟨"acme", "widgets"⟩ ∧
      listed (storePrefix ⟨"acme", "widgets.git"⟩) = some ⟨"acme", "widgets"⟩ := by
  have hvalid : Valid ⟨"acme", "widgets.git"⟩ :=
    ⟨valid_widgets.1, ⟨by decide, by decide, by decide, List.all_eq_true.mp (by decide)⟩⟩
  have hparse : parse (RepoId.text ⟨"acme", "widgets.git"⟩) = .ok ⟨"acme", "widgets"⟩ :=
    parse_ok.mpr ⟨valid_widgets, by decide⟩
  refine ⟨parse_ok.mpr ⟨hvalid, by decide⟩, hparse, ?_⟩
  rw [listed_eq hvalid, hparse]
  rfl

end RoundTrip

end RepoId

end Walgit
