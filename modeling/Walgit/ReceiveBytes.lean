import Mathlib.Data.List.TakeDrop
import Mathlib.Data.List.TakeWhile
import Walgit.Pkt
import Walgit.Utf8

/-!
# The bytes of a push

`parse` reads the head of a push from a stream: the shallow commits of the client, the ref
commands, the first with the capabilities behind a NUL, and the push options if they were
negotiated. What it leaves is the pack.
-/
namespace Walgit.ReceiveBytes

open Policy (bytes)
open Pkt (Bytes Line Reader Error)
open Receive (splitOnce trimEndNewlines trim tokens)
open Text

/-- The capabilities of a client, and the shallow commits it announced. -/
structure Caps where
  reportStatus : Bool := false
  reportStatusV2 : Bool := false
  sideBand64k : Bool := false
  atomic : Bool := false
  quiet : Bool := false
  pushOptions : Bool := false
  ofsDelta : Bool := false
  agent : Option String := none
  objectFormat : Option String := none
  shallow : List String := []
  deriving DecidableEq, Repr

/-- One capability. -/
inductive Cap where
  | reportStatus
  | reportStatusV2
  | sideBand64k
  | atomic
  | quiet
  | pushOptions
  | ofsDelta
  | agent (value : String)
  | objectFormat (value : String)
  | other (token : String)
  deriving DecidableEq, Repr

def capOf (tok : List Char) : Cap :=
  if tok = "report-status".toList then .reportStatus
  else if tok = "report-status-v2".toList then .reportStatusV2
  else if tok = "side-band-64k".toList then .sideBand64k
  else if tok = "atomic".toList then .atomic
  else if tok = "quiet".toList then .quiet
  else if tok = "push-options".toList then .pushOptions
  else if tok = "ofs-delta".toList then .ofsDelta
  else match splitOnce '=' tok with
    | (key, some value) =>
      if key = "agent".toList then .agent (String.ofList value)
      else if key = "object-format".toList then .objectFormat (String.ofList value)
      else .other (String.ofList tok)
    | (_, none) => .other (String.ofList tok)

def Caps.add (caps : Caps) : Cap → Caps
  | .reportStatus => { caps with reportStatus := true }
  | .reportStatusV2 => { caps with reportStatusV2 := true }
  | .sideBand64k => { caps with sideBand64k := true }
  | .atomic => { caps with atomic := true }
  | .quiet => { caps with quiet := true }
  | .pushOptions => { caps with pushOptions := true }
  | .ofsDelta => { caps with ofsDelta := true }
  | .agent value => { caps with agent := some value }
  | .objectFormat value => { caps with objectFormat := some value }
  | .other _ => caps

def applyCaps (caps : Caps) (s : List Char) : Caps :=
  (tokens s).foldl (fun caps tok => if tok.isEmpty then caps else caps.add (capOf tok)) caps

/-- A line that announces a shallow commit, and what it announces. -/
def shallowLine (b : Bytes) : Option String :=
  if (bytes "shallow ").isPrefixOf b then
    some (String.ofList (trim (Utf8.decode (b.drop (bytes "shallow ").length))))
  else none

def Caps.announce (caps : Caps) (oid : String) : Caps := { caps with shallow := caps.shallow ++ [oid] }

section Parse

variable [CharTables]

/-- `<old> <new> <ref>`, the first one with a NUL and capabilities after it. -/
def parseCommandLine (b : Bytes) : Except Error (RefUpdate × List Char) := do
  let cmd := b.takeWhile (· ≠ 0)
  let caps := (b.dropWhile (· ≠ 0)).drop 1
  let (old, rest) := splitOnce ' ' (trimEndNewlines (Utf8.decode cmd))
  let rest ← match rest with
    | some rest => pure rest
    | none => throw (.git (.protocol "missing new oid"))
  let (new, rest) := splitOnce ' ' rest
  let name ← match rest with
    | some name => pure name
    | none => throw (.git (.protocol "missing ref name"))
  let update : RefUpdate := ⟨String.ofList name, String.ofList old, String.ofList new, ""⟩
  match validateRefUpdate update with
  | .ok _ => pure (update, Utf8.decode caps)
  | .error message => throw (.git (.invalidInput message))

/-- Reads over the shallow commits that the client announces first. -/
def readFirst : ℕ → Caps → Reader → Except Error (Option Line × Caps × Reader)
  | 0, caps, r => .ok (none, caps, r)
  | n + 1, caps, r =>
    match Pkt.readPktLine r with
    | .error e => .error e
    | .ok (some (.data b), r) =>
      match shallowLine b with
      | some oid => readFirst n (caps.announce oid) r
      | none => .ok (some (.data b), caps, r)
    | .ok (line, r) => .ok (line, caps, r)

/-- One of the remaining command lines. -/
def takeCommand (t : List RefUpdate × Caps) (b : Bytes) : Except Error (List RefUpdate × Caps) :=
  match shallowLine b with
  | some oid => .ok (t.1, t.2.announce oid)
  | none =>
    match parseCommandLine b with
    | .error e => .error e
    | .ok (update, _) => .ok (t.1 ++ [update], t.2)

def takeOption (options : List String) (b : Bytes) : Except Error (List String) :=
  .ok (options ++ [String.ofList (trimEndNewlines (Utf8.decode b))])

/-- The push options, which follow only if they were negotiated. -/
def readOptions (caps : Caps) (r : Reader) : Except Error (List String × Reader) :=
  if caps.pushOptions then Pkt.foldSection takeOption [] r else .ok ([], r)

/-- The ref transaction of a push, the capabilities, and the reader at its pack. -/
def parse (r : Reader) : Except Error (RefTransaction × Caps × Reader) := do
  let (first, caps, r) ← readFirst (r.flatten.length + 1) {} r
  match first with
  | none | some .flush => pure (⟨[], [], false⟩, caps, r)
  | some .delim | some .responseEnd => throw (.git (.protocol "unexpected delim before commands"))
  | some (.data b) =>
    let (update, capStr) ← parseCommandLine b
    let caps := applyCaps caps capStr
    let atomic := caps.atomic
    let ((updates, caps), r) ← Pkt.foldSection takeCommand ([update], caps) r
    let (options, r) ← readOptions caps r
    pure (⟨updates, options, atomic⟩, caps, r)

end Parse

section Requests

def Cap.text : Cap → String
  | .reportStatus => "report-status"
  | .reportStatusV2 => "report-status-v2"
  | .sideBand64k => "side-band-64k"
  | .atomic => "atomic"
  | .quiet => "quiet"
  | .pushOptions => "push-options"
  | .ofsDelta => "ofs-delta"
  | .agent value => "agent=" ++ value
  | .objectFormat value => "object-format=" ++ value
  | .other token => token

/-- The head of a push as a client means it. -/
structure Request where
  shallow : List String
  first : RefUpdate
  caps : List Cap
  more : List RefUpdate
  options : List String

/-- What clients differ in: lines may end in a newline, and a blank may precede the capabilities. -/
structure Style where
  newline : Bool
  blank : Bool

def Style.eol (style : Style) : List Char := if style.newline then ['\n'] else []

def Style.ended (style : Style) (b : Bytes) : Bytes := b ++ Utf8.encode style.eol

def commandText (u : RefUpdate) : String := u.oldOid ++ " " ++ u.newOid ++ " " ++ u.name

/-- The capabilities, a blank between one and the next. -/
def Style.capText (style : Style) (caps : List Cap) : List Char :=
  (if style.blank then [' '] else []) ++ [' '].intercalate (caps.map fun cap => cap.text.toList)

namespace Request

def updates (q : Request) : List RefUpdate := q.first :: q.more

def firstLine (q : Request) (style : Style) : Bytes :=
  style.ended (bytes (commandText q.first) ++ 0 :: Utf8.encode (style.capText q.caps))

/-- The packets of the head of a push. -/
def lines (q : Request) (style : Style) : List Line :=
  q.shallow.map (fun oid => .data (style.ended (bytes ("shallow " ++ oid)))) ++
    .data (q.firstLine style) ::
      (q.more.map (fun u => .data (style.ended (bytes (commandText u)))) ++ [.flush] ++
        if .pushOptions ∈ q.caps then
          q.options.map (fun o => .data (style.ended (bytes o))) ++ [.flush]
        else [])

def encode (q : Request) (style : Style) : Bytes := (q.lines style).flatMap Pkt.encode

end Request

/-- What the server is to know of a client. -/
def capsOf (shallow : List String) (caps : List Cap) : Caps where
  reportStatus := .reportStatus ∈ caps
  reportStatusV2 := .reportStatusV2 ∈ caps
  sideBand64k := .sideBand64k ∈ caps
  atomic := .atomic ∈ caps
  quiet := .quiet ∈ caps
  pushOptions := .pushOptions ∈ caps
  ofsDelta := .ofsDelta ∈ caps
  agent := (caps.filterMap fun | .agent value => some value | _ => none).getLast?
  objectFormat := (caps.filterMap fun | .objectFormat value => some value | _ => none).getLast?
  shallow := shallow

end Requests

section Lines

theorem takeWhile_ne_zero {cmd : Bytes} (h : (0 : UInt8) ∉ cmd) {tail : Bytes}
    (htail : tail = [] ∨ ∃ caps, tail = 0 :: caps) :
    (cmd ++ tail).takeWhile (· ≠ 0) = cmd ∧ (cmd ++ tail).dropWhile (· ≠ 0) = tail := by
  have hall : ∀ b ∈ cmd, (b ≠ 0 : Bool) = true := fun b hb => by
    simpa using fun heq : b = 0 => h (heq ▸ hb)
  rw [List.takeWhile_append_of_pos hall, List.dropWhile_append_of_pos hall]
  rcases htail with rfl | ⟨caps, rfl⟩
  · simp
  · simp

theorem splitOnce_append {sep : Char} {word rest : List Char} (h : sep ∉ word) :
    splitOnce sep (word ++ sep :: rest) = (word, some rest) := by
  have hall : ∀ c ∈ word, (c ≠ sep : Bool) = true := fun c hc => by
    simpa using fun heq : c = sep => h (heq ▸ hc)
  rw [splitOnce, List.span_eq_takeWhile_dropWhile, List.takeWhile_append_of_pos hall,
    List.dropWhile_append_of_pos hall]
  simp

theorem trimEnd_append {p : Char → Bool} {text ending : List Char}
    (htext : ∀ c, text.getLast? = some c → p c = false) (hending : ∀ c ∈ ending, p c = true) :
    (((text ++ ending).reverse.dropWhile p)).reverse = text := by
  rw [List.reverse_append, List.dropWhile_append_of_pos fun c hc =>
    hending c (List.mem_reverse.mp hc)]
  cases hrev : text.reverse with
  | nil => rw [List.dropWhile_nil, ← hrev, List.reverse_reverse]
  | cons c rest =>
    have hlast : text.getLast? = some c := by
      rw [← List.head?_reverse, hrev, List.head?_cons]
    rw [List.dropWhile_cons_of_neg (by rw [htext c hlast]; decide), ← hrev, List.reverse_reverse]

theorem Style.eol_newline (style : Style) : ∀ c ∈ style.eol, c = '\n' := by
  unfold Style.eol
  split_ifs <;> simp

theorem trimEndNewlines_ended (style : Style) {text : List Char}
    (h : text.getLast? ≠ some '\n') : trimEndNewlines (text ++ style.eol) = text := by
  refine trimEnd_append (fun c hc => ?_) fun c hc => by simp [style.eol_newline c hc]
  simpa using fun heq : c = '\n' => h (heq ▸ hc)

/-- A text without blanks. -/
def Word (text : List Char) : Prop := ∀ c ∈ text, isWhitespace c = false

theorem trim_ended (style : Style) {text : List Char} (h : Word text) :
    trim (text ++ style.eol) = text := by
  have hending : ∀ c ∈ style.eol, isWhitespace c = true := fun c hc => by
    rw [style.eol_newline c hc]
    decide
  rw [trim]
  cases text with
  | nil =>
    rw [List.nil_append, List.dropWhile_eq_nil_iff.mpr hending]
    rfl
  | cons c text =>
    rw [List.cons_append, List.dropWhile_cons_of_neg (by rw [h c List.mem_cons_self]; decide)]
    exact trimEnd_append (fun d hd => h d (List.mem_of_getLast? hd)) hending

theorem toList_commandText (u : RefUpdate) : (commandText u).toList =
    u.oldOid.toList ++ ' ' :: (u.newOid.toList ++ ' ' :: u.name.toList) := by
  simp [commandText, String.toList_append]

theorem hexDigit_ne {c d : Char} (h : isAsciiHexDigit c = true)
    (hd : isAsciiHexDigit d = false) : c ≠ d := fun heq => by
  rw [heq, hd] at h
  cases h

theorem decode_ended (style : Style) (text : List Char) :
    Utf8.decode (style.ended (Utf8.encode text)) = text ++ style.eol := by
  rw [Style.ended, ← Utf8.encode_append, Utf8.decode_encode]

theorem zero_not_mem {text : List Char} (h : '\x00' ∉ text) : (0 : UInt8) ∉ Utf8.encode text :=
  mt (Utf8.mem_encode (d := '\x00') (by decide)).mp h

theorem word_of_hex {text : List Char} (h : ∀ c ∈ text, isAsciiHexDigit c = true) : Word text := by
  intro c hc
  have hrange : (48 ≤ c.toNat ∧ c.toNat ≤ 57) ∨ (97 ≤ c.toNat ∧ c.toNat ≤ 102) ∨
      (65 ≤ c.toNat ∧ c.toNat ≤ 70) := by
    simpa [isAsciiHexDigit, Char.isDigit, Char.le_def, UInt32.le_iff_toNat_le, or_assoc]
      using h c hc
  simp only [isWhitespace, decide_eq_false_iff_not]
  omega

theorem shallowLine_shallow {oid : String} (h : ∀ c ∈ oid.toList, isAsciiHexDigit c = true)
    (style : Style) : shallowLine (style.ended (bytes ("shallow " ++ oid))) = some oid := by
  have hbytes : style.ended (bytes ("shallow " ++ oid)) =
      bytes "shallow " ++ style.ended (bytes oid) := by
    simp [Style.ended, bytes, String.toList_append]
  rw [shallowLine, hbytes, if_pos (List.isPrefixOf_iff_prefix.mpr (List.prefix_append _ _)),
    List.drop_left, bytes, ← Utf8.encode, decode_ended, trim_ended style (word_of_hex h),
    String.ofList_toList]

end Lines

section Commands

variable [CharTables]

/-- A command that the server accepts. -/
def Command (u : RefUpdate) : Prop := validateRefUpdate u = .ok () ∧ u.newSymbolicTarget = ""

instance (u : RefUpdate) : Decidable (Command u) := inferInstanceAs (Decidable (_ ∧ _))

theorem hex_of_validateOid {oid : String} (h : validateOid oid = .ok ()) :
    ∀ c ∈ oid.toList, isAsciiHexDigit c = true := by
  unfold validateOid at h
  split_ifs at h with hnull hhex
  · intro c hc
    have := List.all_eq_true.mp hnull c hc
    obtain rfl : c = '0' := by simpa using this
    decide
  · rw [Bool.and_eq_true, List.all_eq_true] at hhex
    exact hhex.2

theorem line_of_validateRefName {name : String} (h : validateRefName name = .ok ()) :
    '\n' ∉ name.toList ∧ '\x00' ∉ name.toList := by
  unfold validateRefName at h
  split_ifs at h with hhead hbad
  · rw [hhead]
    exact ⟨by decide, by decide⟩
  · simp only [Bool.or_eq_true, not_or] at hbad
    have hany := hbad.1.1.1.1.1.1.1.2
    rw [List.any_eq_true] at hany
    exact ⟨fun hmem => hany ⟨_, hmem, by decide⟩, fun hmem => hany ⟨_, hmem, by decide⟩⟩

theorem Command.parts {u : RefUpdate} (h : Command u) :
    (∀ c ∈ u.oldOid.toList, isAsciiHexDigit c = true) ∧
      (∀ c ∈ u.newOid.toList, isAsciiHexDigit c = true) ∧
      '\n' ∉ u.name.toList ∧ '\x00' ∉ u.name.toList := by
  obtain ⟨hvalid, hsymbolic⟩ := h
  have hplain : ¬ u.symbolic = true := by simp [RefUpdate.symbolic, hsymbolic]
  rw [validateRefUpdate, if_neg hplain] at hvalid
  cases hname : validateRefName u.name with
  | error e =>
    rw [hname] at hvalid
    cases hvalid
  | ok _ =>
    rw [hname] at hvalid
    cases hold : validateOid u.oldOid with
    | error e =>
      rw [hold] at hvalid
      cases hvalid
    | ok _ =>
      rw [hold] at hvalid
      exact ⟨hex_of_validateOid hold, hex_of_validateOid hvalid, line_of_validateRefName hname⟩

theorem Command.not_mem {u : RefUpdate} (h : Command u) :
    '\n' ∉ (commandText u).toList ∧ '\x00' ∉ (commandText u).toList := by
  obtain ⟨hold, hnew, hline, hnul⟩ := h.parts
  rw [toList_commandText]
  simp only [List.mem_append, List.mem_cons, not_or]
  exact ⟨⟨fun hmem => hexDigit_ne (hold _ hmem) (by decide) rfl, by decide,
      fun hmem => hexDigit_ne (hnew _ hmem) (by decide) rfl, by decide, hline⟩,
    fun hmem => hexDigit_ne (hold _ hmem) (by decide) rfl, by decide,
      fun hmem => hexDigit_ne (hnew _ hmem) (by decide) rfl, by decide, hnul⟩

theorem parseCommandLine_eq {u : RefUpdate} (h : Command u) {cmd tail : Bytes}
    (hzero : (0 : UInt8) ∉ cmd) (htail : tail = [] ∨ ∃ caps, tail = 0 :: caps)
    (htext : trimEndNewlines (Utf8.decode cmd) = (commandText u).toList) :
    parseCommandLine (cmd ++ tail) = .ok (u, Utf8.decode (tail.drop 1)) := by
  obtain ⟨hold, hnew, -, -⟩ := h.parts
  obtain ⟨htake, hdrop⟩ := takeWhile_ne_zero hzero htail
  have hu : (⟨String.ofList u.name.toList, String.ofList u.oldOid.toList,
      String.ofList u.newOid.toList, ""⟩ : RefUpdate) = u := by
    simp only [String.ofList_toList, ← h.2]
  rw [parseCommandLine, htake, hdrop, htext, toList_commandText,
    splitOnce_append fun hmem => hexDigit_ne (hold _ hmem) (by decide) rfl]
  dsimp only [pure_bind]
  rw [pure_bind, splitOnce_append fun hmem => hexDigit_ne (hnew _ hmem) (by decide) rfl]
  dsimp only
  rw [pure_bind, hu, h.1]
  rfl

theorem trimEndNewlines_command {u : RefUpdate} (h : Command u) (style : Style) :
    trimEndNewlines ((commandText u).toList ++ style.eol) = (commandText u).toList :=
  trimEndNewlines_ended style fun hlast => h.not_mem.1 (List.mem_of_getLast? hlast)

theorem parseCommandLine_command {u : RefUpdate} (h : Command u) (style : Style) :
    parseCommandLine (style.ended (bytes (commandText u))) = .ok (u, []) := by
  have hzero : (0 : UInt8) ∉ style.ended (bytes (commandText u)) := by
    rw [Style.ended, bytes, ← Utf8.encode, ← Utf8.encode_append]
    refine zero_not_mem fun hmem => ?_
    rcases List.mem_append.mp hmem with hcmd | heol
    · exact h.not_mem.2 hcmd
    · exact absurd (style.eol_newline _ heol) (by decide)
  have := parseCommandLine_eq h hzero (.inl rfl) (by
    rw [bytes, ← Utf8.encode, decode_ended, trimEndNewlines_command h])
  rwa [List.append_nil] at this

theorem parseCommandLine_first {u : RefUpdate} (h : Command u) (style : Style)
    (caps : List Char) :
    parseCommandLine (style.ended (bytes (commandText u) ++ 0 :: Utf8.encode caps)) =
      .ok (u, caps ++ style.eol) := by
  have htext := trimEndNewlines_command h ⟨false, false⟩
  rw [Style.eol, if_neg (by decide), List.append_nil] at htext
  have := parseCommandLine_eq h (zero_not_mem h.not_mem.2)
    (.inr ⟨style.ended (Utf8.encode caps), rfl⟩) (by rw [Utf8.decode_encode, htext])
  rw [List.drop_one, List.tail_cons, decode_ended] at this
  rw [Style.ended, List.append_assoc]
  exact this

/-- A command is not taken for a shallow commit. -/
theorem shallowLine_command {u : RefUpdate} (h : Command u) (tail : Bytes) :
    shallowLine (bytes (commandText u) ++ tail) = none := by
  obtain ⟨hold, -, -, -⟩ := h.parts
  obtain ⟨c, rest, hc, hne⟩ : ∃ c rest, (commandText u).toList = c :: rest ∧ c ≠ 's' := by
    rw [toList_commandText]
    cases hu : u.oldOid.toList with
    | nil => exact ⟨' ', _, rfl, by decide⟩
    | cons c old =>
      rw [hu] at hold
      exact ⟨c, _, rfl, hexDigit_ne (hold c List.mem_cons_self) (by decide)⟩
  rw [shallowLine, if_neg fun hprefix => ?_]
  obtain ⟨after, hafter⟩ := List.isPrefixOf_iff_prefix.mp hprefix
  rw [(by decide : bytes "shallow " = 115 :: [104, 97, 108, 108, 111, 119, 32]),
    bytes, hc, List.flatMap_cons, List.append_assoc] at hafter
  cases hbytes : String.utf8EncodeChar c with
  | nil =>
    have hlen := String.length_utf8EncodeChar c
    rw [hbytes] at hlen
    exact absurd hlen.symm (Nat.ne_of_gt c.utf8Size_pos)
  | cons b bs =>
    rw [hbytes] at hafter
    refine hne ((Utf8.mem_encodeChar (d := 's') (by decide)).mp ?_)
    rw [hbytes, ← (List.cons.inj hafter).1]
    exact List.mem_cons_self

end Commands

section Capabilities

/-- The text that a client sends for it is its own. -/
def Cap.Plain : Cap → Prop
  | .agent value => Word value.toList
  | .objectFormat value => Word value.toList
  | .other token => token ≠ "" ∧ Word token.toList ∧ ∀ cap : Cap, cap.text = token → cap = .other token
  | _ => True

theorem ne_of_mem {c : Char} {s t : List Char} (hs : c ∈ s) (ht : c ∉ t) : s ≠ t :=
  fun heq => ht (heq ▸ hs)

theorem capOf_assigned {key value : List Char} (hkey : '=' ∉ key) :
    capOf (key ++ '=' :: value) = if key = "agent".toList then .agent (String.ofList value)
      else if key = "object-format".toList then .objectFormat (String.ofList value)
      else .other (String.ofList (key ++ '=' :: value)) := by
  have hmem : '=' ∈ key ++ '=' :: value := List.mem_append_right _ List.mem_cons_self
  rw [capOf, if_neg (ne_of_mem hmem (by decide)), if_neg (ne_of_mem hmem (by decide)),
    if_neg (ne_of_mem hmem (by decide)), if_neg (ne_of_mem hmem (by decide)),
    if_neg (ne_of_mem hmem (by decide)), if_neg (ne_of_mem hmem (by decide +kernel)),
    if_neg (ne_of_mem hmem (by decide)), splitOnce_append hkey]

theorem splitOnce_eq {sep : Char} {text before after : List Char}
    (h : splitOnce sep text = (before, some after)) : text = before ++ sep :: after := by
  rw [splitOnce, List.span_eq_takeWhile_dropWhile] at h
  have happend := List.takeWhile_append_dropWhile (p := fun c => decide (c ≠ sep)) (l := text)
  cases hdrop : text.dropWhile (fun c => decide (c ≠ sep)) with
  | nil =>
    rw [hdrop] at h
    cases h
  | cons c rest =>
    rw [hdrop] at h happend
    cases h
    have hc : ¬ decide (c ≠ sep) = true := by
      have := List.head?_dropWhile_not (fun c => decide (c ≠ sep)) text
      rw [hdrop] at this
      simpa using this
    obtain rfl : c = sep := by simpa using hc
    exact happend.symm

theorem text_capOf (tok : List Char) : (capOf tok).text.toList = tok := by
  unfold capOf
  split_ifs with h1 h2 h3 h4 h5 h6 h7
  · exact h1.symm
  · exact h2.symm
  · exact h3.symm
  · exact h4.symm
  · exact h5.symm
  · exact h6.symm
  · exact h7.symm
  · split
    · rename_i key value hsplit
      split_ifs with hagent hformat
      · rw [Cap.text, String.toList_append, String.toList_ofList (l := value),
          splitOnce_eq hsplit, hagent,
          (by decide +kernel : "agent=".toList = "agent".toList ++ ['=']), List.append_assoc,
          List.singleton_append]
      · rw [Cap.text, String.toList_append, String.toList_ofList (l := value),
          splitOnce_eq hsplit, hformat,
          (by decide : "object-format=".toList = "object-format".toList ++ ['=']),
          List.append_assoc, List.singleton_append]
      · exact String.toList_ofList
    · exact String.toList_ofList

theorem capOf_text {cap : Cap} (h : cap.Plain) : capOf cap.text.toList = cap := by
  cases cap with
  | reportStatus => decide +kernel
  | reportStatusV2 => decide +kernel
  | sideBand64k => decide +kernel
  | atomic => decide +kernel
  | quiet => decide
  | pushOptions => decide +kernel
  | ofsDelta => decide +kernel
  | agent value =>
    rw [Cap.text, String.toList_append,
      (by decide +kernel : "agent=".toList = "agent".toList ++ ['=']), List.append_assoc,
      List.singleton_append, capOf_assigned (by decide +kernel), if_pos rfl, String.ofList_toList]
  | objectFormat value =>
    rw [Cap.text, String.toList_append,
      (by decide : "object-format=".toList = "object-format".toList ++ ['=']),
      List.append_assoc, List.singleton_append, capOf_assigned (by decide),
      if_neg (by decide +kernel), if_pos rfl, String.ofList_toList]
  | other token =>
    refine h.2.2 _ ?_
    rw [← String.toList_inj, text_capOf, Cap.text]

/-- What stands between the blanks and newlines of a text. -/
def pieces (text : List Char) : List (List Char) :=
  text.foldr (fun c acc => match acc with
    | [] => [[c]]
    | word :: words => if c = ' ' || c = '\n' then [] :: word :: words else (c :: word) :: words)
    [[]]

theorem tokens_eq (text : List Char) : tokens text = (pieces text).map trim := rfl

theorem pieces_cons (c : Char) (text : List Char) : ∃ word words, pieces text = word :: words ∧
    pieces (c :: text) =
      if c = ' ' || c = '\n' then [] :: word :: words else (c :: word) :: words := by
  have hne : ∃ word words, pieces text = word :: words := by
    induction text with
    | nil => exact ⟨[], [], rfl⟩
    | cons d text ih =>
      obtain ⟨word, words, heq⟩ := ih
      rw [pieces, List.foldr_cons, ← pieces, heq]
      dsimp only
      split_ifs
      · exact ⟨_, _, rfl⟩
      · exact ⟨_, _, rfl⟩
  obtain ⟨word, words, heq⟩ := hne
  refine ⟨word, words, heq, ?_⟩
  rw [pieces, List.foldr_cons, ← pieces, heq]

theorem pieces_separator {c : Char} (hc : c = ' ' ∨ c = '\n') (text : List Char) :
    pieces (c :: text) = [] :: pieces text := by
  obtain ⟨word, words, heq, hcons⟩ := pieces_cons c text
  rw [hcons, heq, if_pos (by simpa using hc)]

theorem pieces_word {word : List Char} (h : Word word) {text first : List Char}
    {others : List (List Char)} (htext : pieces text = first :: others) :
    pieces (word ++ text) = (word ++ first) :: others := by
  induction word with
  | nil => exact htext
  | cons c word ih =>
    have hword : Word word := fun d hd => h d (List.mem_cons_of_mem c hd)
    have hc := h c List.mem_cons_self
    obtain ⟨w, ws, heq, hcons⟩ := pieces_cons c (word ++ text)
    rw [ih hword] at heq
    cases heq
    have hne : ¬ ((c = ' ' || c = '\n') = true) := by
      rw [Bool.or_eq_true, decide_eq_true_eq, decide_eq_true_eq]
      rintro (rfl | rfl)
      · exact absurd hc (by decide)
      · exact absurd hc (by decide)
    rw [List.cons_append, hcons, if_neg hne, List.cons_append]

/-- The tokens that are not empty. -/
def words (text : List Char) : List (List Char) := (tokens text).filter fun tok => !tok.isEmpty

theorem trim_word {word : List Char} (h : Word word) : trim word = word := by
  have := trim_ended ⟨false, false⟩ h
  rwa [Style.eol, if_neg (by decide), List.append_nil] at this

theorem words_separator {c : Char} (hc : c = ' ' ∨ c = '\n') (text : List Char) :
    words (c :: text) = words text := by
  rw [words, tokens_eq, pieces_separator hc, List.map_cons, trim_word (fun _ h => by cases h)]
  rfl

theorem words_word {word : List Char} (h : Word word) (hne : word ≠ []) {c : Char}
    (hc : c = ' ' ∨ c = '\n') (text : List Char) :
    words (word ++ c :: text) = word :: words text := by
  rw [words, tokens_eq, pieces_word h (pieces_separator hc text), List.append_nil, List.map_cons,
    trim_word h, List.filter_cons_of_pos (by simpa using hne)]
  rfl

theorem words_last {word : List Char} (h : Word word) (hne : word ≠ []) :
    words word = [word] := by
  have hpieces := pieces_word h (rfl : pieces [] = [] :: [])
  rw [List.append_nil] at hpieces
  rw [words, tokens_eq, hpieces, List.map_cons, trim_word h, List.map_nil,
    List.filter_cons_of_pos (by simpa using hne), List.filter_nil]

theorem words_intercalate (style : Style) {texts : List (List Char)}
    (h : ∀ text ∈ texts, Word text ∧ text ≠ []) :
    words ([' '].intercalate texts ++ style.eol) = texts := by
  induction texts with
  | nil => cases style with | mk newline blank => cases newline <;> rfl
  | cons text texts ih =>
    rw [List.forall_mem_cons] at h
    cases texts with
    | nil =>
      rw [List.intercalate, List.intersperse_singleton, List.flatten_singleton, Style.eol]
      split_ifs
      · rw [words_word h.1.1 h.1.2 (.inr rfl)]
        rfl
      · rw [List.append_nil, words_last h.1.1 h.1.2]
    | cons next texts =>
      have hnext := ih h.2
      rw [List.intercalate, List.intersperse_cons_cons, List.flatten_cons, List.flatten_cons,
        List.append_assoc, List.append_assoc, List.singleton_append,
        words_word h.1.1 h.1.2 (.inl rfl)]
      exact congrArg (text :: ·) hnext

instance (text : List Char) : Decidable (Word text) :=
  List.decidableBAll (fun c => isWhitespace c = false) text

theorem Word.append {s t : List Char} (hs : Word s) (ht : Word t) : Word (s ++ t) :=
  fun c hc => (List.mem_append.mp hc).elim (hs c) (ht c)

theorem Cap.Plain.word {cap : Cap} (h : cap.Plain) :
    Word cap.text.toList ∧ cap.text.toList ≠ [] := by
  cases cap with
  | reportStatus => decide
  | reportStatusV2 => decide
  | sideBand64k => decide
  | atomic => decide
  | quiet => decide +kernel
  | pushOptions => decide
  | ofsDelta => decide
  | agent value =>
    rw [Cap.text, String.toList_append]
    exact ⟨Word.append (by decide +kernel) h, by simp⟩
  | objectFormat value =>
    rw [Cap.text, String.toList_append]
    exact ⟨Word.append (by decide) h, by simp⟩
  | other token => exact ⟨h.2.1, fun hnil => h.1 (String.toList_eq_nil_iff.mp hnil)⟩

theorem words_capText (style : Style) {caps : List Cap} (h : ∀ cap ∈ caps, cap.Plain) :
    words (style.capText caps ++ style.eol) = caps.map fun cap => cap.text.toList := by
  have htexts : ∀ text ∈ caps.map (fun cap => cap.text.toList), Word text ∧ text ≠ [] := by
    intro text htext
    obtain ⟨cap, hcap, rfl⟩ := List.mem_map.mp htext
    exact (h cap hcap).word
  have hwords := words_intercalate style htexts
  rw [Style.capText, List.append_assoc]
  split_ifs
  · rw [List.singleton_append, words_separator (.inl rfl), hwords]
  · exact hwords

theorem applyCaps_eq (caps : Caps) (text : List Char) :
    applyCaps caps text = (words text).foldl (fun caps tok => caps.add (capOf tok)) caps := by
  rw [applyCaps, words, List.foldl_filter]
  congr
  funext caps tok
  cases tok <;> rfl

theorem applyCaps_capText (style : Style) {caps : List Cap} (h : ∀ cap ∈ caps, cap.Plain)
    (base : Caps) : applyCaps base (style.capText caps ++ style.eol) = caps.foldl Caps.add base := by
  rw [applyCaps_eq, words_capText style h, List.foldl_map]
  clear style
  induction caps generalizing base with
  | nil => rfl
  | cons cap caps ih =>
    rw [List.forall_mem_cons] at h
    rw [List.foldl_cons, List.foldl_cons, capOf_text h.1, ih h.2]

theorem foldl_add (caps : List Cap) (shallow : List String) :
    caps.foldl Caps.add { shallow := shallow } = capsOf shallow caps := by
  induction caps using List.reverseRecOn with
  | nil => rfl
  | append_singleton caps cap ih =>
    rw [List.foldl_append, ih]
    cases cap <;> simp [Caps.add, capsOf, List.filterMap_append]

end Capabilities

section Reading

theorem map_dataFrame {α : Type} (f : α → Bytes) (as : List α) :
    (as.map fun a => Line.data (f a)).flatMap Pkt.encode = (as.map f).flatMap Pkt.dataFrame := by
  rw [List.flatMap_map, List.flatMap_map]
  rfl

theorem forall_fits {α : Type} {f : α → Bytes} {as : List α} :
    (∀ line ∈ as.map (fun a => Line.data (f a)), line.Fits) ↔
      ∀ b ∈ as.map f, (Line.data b).Fits := by
  simp

def Style.shallow (style : Style) (oid : String) : Bytes := style.ended (bytes ("shallow " ++ oid))

theorem readFirst_shallow {style : Style} {oids : List String}
    (hoids : ∀ oid ∈ oids, ∀ c ∈ oid.toList, isAsciiHexDigit c = true)
    (hfits : ∀ b ∈ oids.map style.shallow, (Line.data b).Fits) {b : Bytes}
    (hb : shallowLine b = none) (hbfits : (Line.data b).Fits) {n : ℕ} (hn : oids.length < n)
    (caps : Caps) {r : Reader} {rest : Bytes}
    (hr : r.flatten = (oids.map style.shallow).flatMap Pkt.dataFrame ++ (Pkt.dataFrame b ++ rest)) :
    ∃ r', r'.flatten = rest ∧ readFirst n caps r =
      .ok (some (.data b), { caps with shallow := caps.shallow ++ oids }, r') := by
  induction oids generalizing n caps r with
  | nil =>
    obtain ⟨m, rfl⟩ : ∃ m, n = m + 1 := ⟨n - 1, by omega⟩
    obtain ⟨r', hread, hr'⟩ := Pkt.readsBack hbfits r rest hr
    exact ⟨r', hr', by simp [readFirst, hread, hb]⟩
  | cons oid oids ih =>
    obtain ⟨m, rfl⟩ : ∃ m, n = m + 1 := ⟨n - 1, by omega⟩
    rw [List.forall_mem_cons] at hoids
    rw [List.map_cons, List.forall_mem_cons] at hfits
    rw [List.map_cons, List.flatMap_cons, List.append_assoc] at hr
    obtain ⟨r₁, hread, hr₁⟩ := Pkt.readsBack hfits.1 r _ hr
    obtain ⟨r', hr', hfirst⟩ := ih hoids.2 hfits.2 (by simpa using hn) (caps.announce oid) hr₁
    refine ⟨r', hr', ?_⟩
    rw [readFirst, hread]
    dsimp only
    rw [Style.shallow, shallowLine_shallow hoids.1]
    dsimp only
    rw [hfirst, Caps.announce, List.append_assoc, List.singleton_append]

theorem foldlM_takeOption {os : List String} (h : ∀ o ∈ os, o.toList.getLast? ≠ some '\n')
    (style : Style) (options : List String) :
    (os.map fun o => style.ended (bytes o)).foldlM takeOption options = .ok (options ++ os) := by
  induction os generalizing options with
  | nil => rw [List.append_nil]; rfl
  | cons o os ih =>
    rw [List.forall_mem_cons] at h
    have hstep : takeOption options (style.ended (bytes o)) = .ok (options ++ [o]) := by
      rw [takeOption, bytes, ← Utf8.encode, decode_ended, trimEndNewlines_ended style h.1,
        String.ofList_toList]
    rw [List.map_cons, List.foldlM_cons, hstep]
    exact (ih h.2 _).trans (by rw [List.append_assoc, List.singleton_append])

variable [CharTables]

theorem foldlM_takeCommand {us : List RefUpdate} (h : ∀ u ∈ us, Command u) (style : Style)
    (t : List RefUpdate × Caps) :
    (us.map fun u => style.ended (bytes (commandText u))).foldlM takeCommand t =
      .ok (t.1 ++ us, t.2) := by
  induction us generalizing t with
  | nil => rw [List.append_nil]; rfl
  | cons u us ih =>
    rw [List.forall_mem_cons] at h
    have hstep : takeCommand t (style.ended (bytes (commandText u))) = .ok (t.1 ++ [u], t.2) := by
      rw [takeCommand, parseCommandLine_command h.1, Style.ended, shallowLine_command h.1]
    rw [List.map_cons, List.foldlM_cons, hstep]
    exact (ih h.2 _).trans (by rw [List.append_assoc, List.singleton_append])

/-- A request in the grammar of the protocol. -/
structure Request.WellFormed (q : Request) (style : Style) : Prop where
  commands : ∀ u ∈ q.updates, Command u
  shallow : ∀ oid ∈ q.shallow, ∀ c ∈ oid.toList, isAsciiHexDigit c = true
  caps : ∀ cap ∈ q.caps, cap.Plain
  options : ∀ o ∈ q.options, o.toList.getLast? ≠ some '\n'
  negotiated : q.options ≠ [] → .pushOptions ∈ q.caps
  fits : ∀ line ∈ q.lines style, line.Fits

/-- However the bytes arrive, the head of a push is read as it was meant, and the pack is what
is left. -/
theorem parse_encode {q : Request} {style : Style} (h : q.WellFormed style) {r : Reader}
    {pack : Bytes} (hr : r.flatten = q.encode style ++ pack) :
    ∃ r', parse r = .ok (⟨q.updates, q.options, .atomic ∈ q.caps⟩, capsOf q.shallow q.caps, r') ∧
      r'.flatten = pack := by
  have hfits := h.fits
  obtain ⟨hcommand, hcommands⟩ := List.forall_mem_cons.mp h.commands
  rw [Request.encode, Request.lines, List.flatMap_append, List.flatMap_cons, List.flatMap_append,
    List.flatMap_append, List.flatMap_singleton, map_dataFrame, map_dataFrame] at hr
  rw [Request.lines, List.forall_mem_append, List.forall_mem_cons, List.forall_mem_append,
    List.forall_mem_append, forall_fits, forall_fits] at hfits
  obtain ⟨hshallow, hfirst, ⟨hmore, -⟩, hoptions⟩ := hfits
  simp only [List.append_assoc] at hr
  have hline : q.firstLine style = bytes (commandText q.first) ++
      (0 :: Utf8.encode (style.capText q.caps) ++ Utf8.encode style.eol) := by
    rw [Request.firstLine, Style.ended, List.append_assoc]
  have hlength : q.shallow.length < r.flatten.length + 1 := by
    have := Pkt.length_le_dataFrames hshallow
    rw [List.length_map] at this
    rw [hr, List.length_append]
    omega
  obtain ⟨r₁, hr₁, hread₁⟩ := readFirst_shallow h.shallow hshallow
    (by rw [hline]; exact shallowLine_command hcommand _) hfirst hlength {} hr
  obtain ⟨r₂, hr₂, hread₂⟩ := Pkt.foldSection_flush takeCommand hmore hr₁
    ([q.first], capsOf q.shallow q.caps)
  rw [foldlM_takeCommand hcommands] at hread₂
  have hcaps : applyCaps { shallow := q.shallow } (style.capText q.caps ++ style.eol) =
      capsOf q.shallow q.caps := by
    rw [applyCaps_capText style h.caps, foldl_add]
  have hread : ∃ r', r'.flatten = pack ∧
      readOptions (capsOf q.shallow q.caps) r₂ = .ok (q.options, r') := by
    by_cases hpush : .pushOptions ∈ q.caps
    · rw [if_pos hpush, List.flatMap_append, map_dataFrame, List.flatMap_singleton,
        List.append_assoc] at hr₂
      rw [if_pos hpush, List.forall_mem_append, forall_fits] at hoptions
      obtain ⟨r', hr', hread'⟩ := Pkt.foldSection_flush takeOption hoptions.1 hr₂ []
      rw [foldlM_takeOption h.options] at hread'
      exact ⟨r', hr', by rw [readOptions, if_pos (by simpa [capsOf] using hpush), hread']; rfl⟩
    · rw [if_neg hpush] at hr₂
      have hnone : q.options = [] := by
        by_contra hne
        exact hpush (h.negotiated hne)
      exact ⟨r₂, hr₂, by rw [readOptions, if_neg (by simpa [capsOf] using hpush), hnone]⟩
  obtain ⟨r', hr', hread₃⟩ := hread
  refine ⟨r', ?_, hr'⟩
  have hfirstLine : parseCommandLine (q.firstLine style) = .ok (q.first, _) :=
    parseCommandLine_first hcommand style _
  simp only [parse, hread₁, List.nil_append, bind, Except.bind, hfirstLine, hcaps, hread₂,
    Except.map, hread₃]
  rfl

end Reading

section Example

attribute [local instance] Text.asciiTables

/-- The push of a clone that is shallow at one commit. -/
def shallowPush : Request where
  shallow := [repeated 'b']
  first := ⟨"refs/heads/main", repeated 'a', repeated 'c', ""⟩
  caps := [.reportStatusV2, .sideBand64k, .atomic, .pushOptions, .objectFormat "sha1",
    .agent "git/2.43.0"]
  more := [⟨"refs/heads/topic", repeated '0', repeated 'd', ""⟩]
  options := ["ci.skip"]

theorem shallowPush_wellFormed : shallowPush.WellFormed ⟨false, true⟩ where
  commands := by decide +kernel
  shallow := by
    have hall : shallowPush.shallow.all (fun oid => oid.toList.all isAsciiHexDigit) = true := by
      decide +kernel
    simpa only [List.all_eq_true] using hall
  caps := by
    simp only [shallowPush, List.forall_mem_cons, List.not_mem_nil, false_implies, implies_true,
      and_true]
    exact ⟨trivial, trivial, trivial, trivial, (by decide +kernel : Word "sha1".toList),
      (by decide +kernel : Word "git/2.43.0".toList)⟩
  options := by decide +kernel
  negotiated := fun _ => by decide +kernel
  fits := by decide +kernel

theorem parse_encode_shallowPush :
    ∃ r', parse [shallowPush.encode ⟨false, true⟩ ++ bytes "PACK"] =
        .ok (⟨shallowPush.updates, ["ci.skip"], true⟩,
          capsOf shallowPush.shallow shallowPush.caps, r') ∧ r'.flatten = bytes "PACK" :=
  parse_encode shallowPush_wellFormed (by simp)

end Example

end Walgit.ReceiveBytes
