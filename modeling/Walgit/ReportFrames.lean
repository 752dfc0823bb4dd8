import Mathlib.Tactic.Tauto
import Walgit.Checks
import Walgit.ReceiveBytes
import Walgit.Reports

/-!
# The bytes of a report

The lines of a report are packets, and with a sideband the packets are bands of its first
channel; a refusal is told on the second channel before. A client reads the bands, the packets
and the lines. Line ends within a message, and lengths of more than four digits, are not looked
for when a report is written.
-/
namespace Walgit.Report

open Policy (bytes)
open Pkt (Bytes Line Reader Error Channel Call)
open ReceiveBytes (Caps)

def newline : UInt8 := 10

def blank : UInt8 := 32

/-- The lines of some bytes, each with the newline that ends it. -/
def splitInclusive : Bytes → List Bytes
  | [] => []
  | b :: bs =>
    if b = newline then [b] :: splitInclusive bs
    else match splitInclusive bs with
      | [] => [[b]]
      | line :: lines => (b :: line) :: lines

/-- The packets of a report. -/
def framed (unpack : Option String) (perRef : List Status) : Bytes :=
  (splitInclusive (Utf8.encode (body unpack perRef))).flatMap Pkt.encodeData ++ Pkt.encode .flush

def reportStatus (caps : Caps) (unpack : Option String) (perRef : List Status) : Bytes :=
  if caps.sideBand64k then
    (Call.frames (.write .data (framed unpack perRef))).flatten ++ (Call.frames .flush).flatten
  else framed unpack perRef

/-- Writing to memory does not fail. -/
def buildReport (caps : Caps) (unpack : Option String) (perRef : List Status) : Bytes :=
  reportStatus caps unpack perRef

/-- The most bytes of data in one packet. -/
def maxDataLen : ℕ := 65516

/-- A packet of at most that much data. -/
def encodeLine (data : Bytes) : Option Bytes :=
  if data.length ≤ maxDataLen then some (Pkt.encodeData data) else none

/-- A text on a channel, in packets of which the first begins with the channel. -/
def sidebandPkt (band : UInt8) (text : String) : Option Bytes :=
  let data := band :: bytes text ++ if Text.endsWith "\n" text then [] else [newline]
  ((Framing.chunks maxDataLen data).mapM encodeLine).map List.flatten

/-- The report of a push that is refused before any work. -/
def refusalReport (caps : Caps) (t : RefTransaction) (msg : String) : Option Bytes := do
  let perRef := t.updates.map fun u => (u.name, some msg)
  let out ← if caps.sideBand64k then sidebandPkt 2 (msg ++ "\n") else some []
  some (out ++ buildReport caps (some msg) perRef)

section Client

/-- What a client learns from a report. -/
structure Decoded where
  unpack : Option Bytes
  statuses : List (Bytes × Option Bytes)
  deriving DecidableEq, Repr

/-- A line without the newline that ends it. -/
def chomp (line : Bytes) : Bytes := if line.getLast? = some newline then line.dropLast else line

def readUnpack (line : Bytes) : Option (Option Bytes) :=
  if line = bytes "unpack ok" then some none
  else if (bytes "unpack ng ").isPrefixOf line then
    some (some (line.drop (bytes "unpack ng ").length))
  else none

def readStatus (line : Bytes) : Option (Bytes × Option Bytes) :=
  if (bytes "ok ").isPrefixOf line then some (line.drop (bytes "ok ").length, none)
  else if (bytes "ng ").isPrefixOf line then
    let rest := line.drop (bytes "ng ").length
    match rest.dropWhile (· ≠ blank) with
    | [] => none
    | _ :: reason => some (rest.takeWhile (· ≠ blank), some reason)
  else none

/-- The data of the packets up to a flush; each packet is four bytes or more. -/
def readFrames (b : Bytes) : Option (List Bytes) :=
  (Framing.readFrames Pkt.readData (b.length + 1) [b]).toOption.map Prod.fst

/-- An unpack line, and a status line for each ref. -/
def decodeReport (b : Bytes) : Option Decoded := do
  let lines ← readFrames b
  match lines.map chomp with
  | [] => none
  | first :: rest =>
    let unpack ← readUnpack first
    let statuses ← rest.mapM readStatus
    some ⟨unpack, statuses⟩

/-- One band. The second channel is shown to the user; an error on the third one, or another
channel, ends the connection. -/
def demuxFrame (data frame : Bytes) : Option Bytes :=
  match frame with
  | [] => none
  | channel :: rest =>
    if channel = Channel.data.byte then some (data ++ rest)
    else if channel = Channel.progress.byte then some data
    else none

/-- The data of the first channel. -/
def demux (frames : List Bytes) : Option Bytes := frames.foldlM demuxFrame []

def decode (caps : Caps) (b : Bytes) : Option Decoded :=
  if caps.sideBand64k then do
    let frames ← readFrames b
    let data ← demux frames
    decodeReport data
  else decodeReport b

/-- Every band begins with the byte of a channel. -/
def OnChannels (b : Bytes) : Prop :=
  ∃ frames, readFrames b = some frames ∧
    ∀ frame ∈ frames, ∃ (channel : Channel) (rest : Bytes), frame = channel.byte :: rest

/-- A client learns the outcome of unpacking and the verdict on each ref. -/
def Faithful (caps : Caps) (unpack : Option String) (perRef : List Status) (b : Bytes) : Prop :=
  decode caps b =
      some ⟨unpack.map bytes, perRef.map fun s => (bytes s.1, s.2.map bytes)⟩ ∧
    (caps.sideBand64k → OnChannels b)

end Client

section Words

/-- A line of a report, without the newline. -/
def unpackWords : Option String → Bytes
  | none => bytes "unpack ok"
  | some message => bytes "unpack ng " ++ bytes message

def statusWords : Status → Bytes
  | (name, none) => bytes "ok " ++ bytes name
  | (name, some message) => bytes "ng " ++ bytes name ++ blank :: bytes message

def reportWords (unpack : Option String) (perRef : List Status) : List Bytes :=
  unpackWords unpack :: perRef.map statusWords

def ended (words : Bytes) : Bytes := words ++ [newline]

theorem bytes_eq (s : String) : bytes s = Utf8.encode s.toList := rfl

theorem encode_cons {c : Char} (h : c.toNat < 128) (text : List Char) :
    Utf8.encode (c :: text) = UInt8.ofNat c.toNat :: Utf8.encode text := by
  rw [Utf8.encode, List.flatMap_cons, Utf8.encodeChar_ascii h, List.singleton_append, Utf8.encode]

theorem encode_newline (text : List Char) :
    Utf8.encode (text ++ ['\n']) = ended (Utf8.encode text) := by
  rw [Utf8.encode_append, encode_cons (by decide), ended]
  rfl

theorem encode_body (unpack : Option String) (perRef : List Status) :
    Utf8.encode (body unpack perRef) = (reportWords unpack perRef).flatMap ended := by
  have hunpack : Utf8.encode (unpackText unpack) = ended (unpackWords unpack) := by
    cases unpack with
    | none => decide
    | some message =>
      change Utf8.encode ("unpack ng ".toList ++ message.toList ++ ['\n']) =
        ended (bytes "unpack ng " ++ bytes message)
      rw [encode_newline, Utf8.encode_append, bytes_eq, bytes_eq]
  have hstatus : ∀ s, Utf8.encode (statusText s) = ended (statusWords s) := by
    rintro ⟨name, reason⟩
    cases reason with
    | none =>
      change Utf8.encode ("ok ".toList ++ name.toList ++ ['\n']) = ended (bytes "ok " ++ bytes name)
      rw [encode_newline, Utf8.encode_append, bytes_eq, bytes_eq]
    | some message =>
      have hblank := encode_cons (c := ' ') (by decide) message.toList
      change Utf8.encode ("ng ".toList ++ name.toList ++ ' ' :: message.toList ++ ['\n']) =
        ended (bytes "ng " ++ bytes name ++ blank :: bytes message)
      rw [encode_newline, Utf8.encode_append, Utf8.encode_append, hblank, bytes_eq, bytes_eq,
        bytes_eq]
      rfl
  rw [body, Utf8.encode_append, hunpack, reportWords, List.flatMap_cons, List.flatMap_map]
  refine congrArg (ended (unpackWords unpack) ++ ·) ?_
  induction perRef with
  | nil => rfl
  | cons s perRef ih =>
    rw [List.flatMap_cons, List.flatMap_cons, Utf8.encode_append, hstatus, ih]

theorem splitInclusive_line {line : Bytes} (h : newline ∉ line) (rest : Bytes) :
    splitInclusive (line ++ newline :: rest) = ended line :: splitInclusive rest := by
  induction line with
  | nil => rw [List.nil_append, splitInclusive, if_pos rfl]; rfl
  | cons b line ih =>
    rw [List.mem_cons, not_or] at h
    rw [List.cons_append, splitInclusive, if_neg (Ne.symm h.1), ih h.2]
    rfl

theorem chomp_ended (words : Bytes) : chomp (ended words) = words := by
  rw [chomp, ended, if_pos (by simp), List.dropLast_concat]

theorem splitInclusive_lines {words : List Bytes} (h : ∀ line ∈ words, newline ∉ line) :
    splitInclusive (words.flatMap ended) = words.map ended := by
  induction words with
  | nil => rfl
  | cons line words ih =>
    rw [List.forall_mem_cons] at h
    rw [List.flatMap_cons, ended, List.append_assoc, List.singleton_append,
      splitInclusive_line h.1, ih h.2, List.map_cons]

end Words

section Reading

theorem bytes_ok : bytes "ok " = [111, 107, 32] := by decide

theorem bytes_ng : bytes "ng " = [110, 103, 32] := by decide

theorem bytes_unpackOk :
    bytes "unpack ok" = [117, 110, 112, 97, 99, 107, 32] ++ [111, 107] := by decide

theorem bytes_unpackNg :
    bytes "unpack ng " = [117, 110, 112, 97, 99, 107, 32] ++ [110, 103, 32] := by decide

theorem drop_of_isPrefixOf {p line : Bytes} (h : p.isPrefixOf line = true) :
    line = p ++ line.drop p.length := by
  obtain ⟨rest, rfl⟩ := List.isPrefixOf_iff_prefix.mp h
  rw [List.drop_left]

theorem isPrefixOf_append (p rest : Bytes) : p.isPrefixOf (p ++ rest) = true :=
  List.isPrefixOf_iff_prefix.mpr (List.prefix_append p rest)

theorem readUnpack_iff (line : Bytes) (unpack : Option String) :
    readUnpack line = some (unpack.map bytes) ↔ line = unpackWords unpack := by
  have hok : unpackWords none = bytes "unpack ok" := rfl
  have hng : ∀ message, unpackWords (some message) = bytes "unpack ng " ++ bytes message :=
    fun _ => rfl
  have hne : ∀ rest, bytes "unpack ng " ++ rest ≠ bytes "unpack ok" := by
    intro rest
    rw [bytes_unpackNg, bytes_unpackOk, List.append_assoc]
    simp
  unfold readUnpack
  cases unpack with
  | none =>
    rw [hok]
    split_ifs with h1 h2
    · simp [h1]
    · simp [h1]
    · simp [h1]
  | some message =>
    rw [hng]
    split_ifs with h1 h2
    · refine iff_of_false (by simp) fun heq => hne _ (heq.symm.trans h1)
    · constructor
      · intro heq
        rw [Option.map_some, Option.some.injEq, Option.some.injEq] at heq
        rw [← heq]
        exact drop_of_isPrefixOf h2
      · intro heq
        rw [heq, List.drop_left, Option.map_some]
    · refine iff_of_false (by simp) fun heq => h2 ?_
      rw [heq]
      exact isPrefixOf_append _ _

theorem takeWhile_blank {word : Bytes} (h : blank ∉ word) (rest : Bytes) :
    (word ++ blank :: rest).takeWhile (· ≠ blank) = word ∧
      (word ++ blank :: rest).dropWhile (· ≠ blank) = blank :: rest := by
  have hall : ∀ b ∈ word, (b ≠ blank : Bool) = true := fun b hb => by
    simpa using fun heq : b = blank => h (heq ▸ hb)
  rw [List.takeWhile_append_of_pos hall, List.dropWhile_append_of_pos hall]
  simp

theorem split_blank {rest reason : Bytes} {b : UInt8}
    (h : rest.dropWhile (· ≠ blank) = b :: reason) :
    rest = rest.takeWhile (· ≠ blank) ++ blank :: reason ∧
      blank ∉ rest.takeWhile (· ≠ blank) := by
  have hb : b = blank := by
    have := List.head?_dropWhile_not (fun b : UInt8 => decide (b ≠ blank)) rest
    rw [h] at this
    simpa using this
  constructor
  · have := List.takeWhile_append_dropWhile (p := fun b : UInt8 => decide (b ≠ blank)) (l := rest)
    rw [h, hb] at this
    exact this.symm
  · intro hmem
    simpa using List.mem_takeWhile_imp hmem

theorem not_ok_of_ng {line : Bytes} (h : (bytes "ng ").isPrefixOf line = true) :
    ¬ (bytes "ok ").isPrefixOf line = true := by
  rw [drop_of_isPrefixOf h, bytes_ng, bytes_ok]
  simp [List.isPrefixOf]

/-- A line says what a status does if it is the line of the status, and the name of a refused ref
is one word. -/
theorem readStatus_iff (line : Bytes) (s : Status) :
    readStatus line = some (bytes s.1, s.2.map bytes) ↔
      line = statusWords s ∧ (s.2.isSome → blank ∉ bytes s.1) := by
  obtain ⟨name, reason⟩ := s
  cases reason with
  | none =>
    have hok : statusWords (name, none) = bytes "ok " ++ bytes name := rfl
    rw [hok]
    constructor
    · intro heq
      unfold readStatus at heq
      split_ifs at heq with h1 h2
      · simp only [Option.map_none, Option.some.injEq, Prod.mk.injEq, and_true] at heq
        exact ⟨heq ▸ drop_of_isPrefixOf h1, by simp⟩
      · dsimp only at heq
        split at heq
        · cases heq
        · simp at heq
    · rintro ⟨rfl, -⟩
      rw [readStatus, if_pos (isPrefixOf_append _ _), List.drop_left, Option.map_none]
  | some message =>
    have hng : statusWords (name, some message) =
        bytes "ng " ++ (bytes name ++ blank :: bytes message) := List.append_assoc _ _ _
    rw [hng]
    constructor
    · intro heq
      unfold readStatus at heq
      split_ifs at heq with h1 h2
      · simp at heq
      · dsimp only at heq
        split at heq
        · cases heq
        · rename_i b reason hdrop
          simp only [Option.map_some, Option.some.injEq, Prod.mk.injEq] at heq
          obtain ⟨hrest, hblank⟩ := split_blank hdrop
          rw [heq.1, heq.2] at hrest
          rw [heq.1] at hblank
          exact ⟨hrest ▸ drop_of_isPrefixOf h2, fun _ => hblank⟩
    · rintro ⟨rfl, hblank⟩
      have hprefix := isPrefixOf_append (bytes "ng ") (bytes name ++ blank :: bytes message)
      obtain ⟨htake, hdrop⟩ := takeWhile_blank (hblank rfl) (bytes message)
      rw [readStatus, if_neg (not_ok_of_ng hprefix), if_pos hprefix, List.drop_left]
      dsimp only
      rw [hdrop, htake, Option.map_some]

theorem mapM_readStatus_iff (lines : List Bytes) (perRef : List Status) :
    lines.mapM readStatus = some (perRef.map fun s => (bytes s.1, s.2.map bytes)) ↔
      lines = perRef.map statusWords ∧ ∀ s ∈ perRef, s.2.isSome → blank ∉ bytes s.1 := by
  induction perRef generalizing lines with
  | nil =>
    cases lines with
    | nil => simp
    | cons line lines =>
      rw [List.mapM_cons]
      cases readStatus line <;> cases lines.mapM readStatus <;> simp
  | cons s perRef ih =>
    cases lines with
    | nil => simp
    | cons line lines =>
      rw [List.map_cons, List.map_cons, Checks.mapM_cons_eq_some, readStatus_iff, ih, List.cons.injEq,
        List.forall_mem_cons]
      tauto

/-- A report says what was reported if its lines are the lines of it, and the name of a refused
ref is one word. -/
theorem decodeReport_iff (b : Bytes) (unpack : Option String) (perRef : List Status) :
    decodeReport b =
        some ⟨unpack.map bytes, perRef.map fun s => (bytes s.1, s.2.map bytes)⟩ ↔
      (∃ lines, readFrames b = some lines ∧ lines.map chomp = reportWords unpack perRef) ∧
        ∀ s ∈ perRef, s.2.isSome → blank ∉ bytes s.1 := by
  rw [decodeReport]
  cases readFrames b with
  | none => simp
  | some lines =>
    simp only [Option.bind_eq_bind, Option.bind_some, Option.some.injEq, exists_eq_left']
    cases lines.map chomp with
    | nil => simp [reportWords]
    | cons first rest =>
      rw [reportWords, List.cons.injEq, and_assoc, ← mapM_readStatus_iff, ← readUnpack_iff]
      dsimp only
      cases readUnpack first <;> cases rest.mapM readStatus <;> simp

end Reading

section Wire

/-- A line that is read back: nothing in it ends it, and its length has four digits. -/
def Fits (words : Bytes) : Prop := newline ∉ words ∧ (Line.data (ended words)).Fits

theorem readFrames_eq_some {b : Bytes} {frames : List Bytes} :
    readFrames b = some frames ↔
      ∃ r, Framing.readFrames Pkt.readData (b.length + 1) [b] = .ok (frames, r) := by
  rw [readFrames]
  cases Framing.readFrames Pkt.readData (b.length + 1) [b] with
  | error e => simp [Except.toOption]
  | ok p => simp [Except.toOption, Prod.ext_iff]

/-- Packets are read up to the flush. -/
theorem readFrames_flush {bs : List Bytes} (h : ∀ b ∈ bs, (Line.data b).Fits) (rest : Bytes) :
    readFrames (bs.flatMap Pkt.dataFrame ++ (Pkt.encode .flush ++ rest)) = some bs := by
  have hlength : bs.length <
      (bs.flatMap Pkt.dataFrame ++ (Pkt.encode .flush ++ rest)).length + 1 := by
    have := Pkt.length_le_dataFrames h
    rw [List.length_append]
    omega
  obtain ⟨r, hread, -⟩ := Framing.readFrames_stops (fun b hb => Pkt.readsBack_data (h b hb))
    Pkt.stops_flush hlength List.flatten_singleton
  exact readFrames_eq_some.mpr ⟨r, hread⟩

/-- The data behind a header. -/
theorem readData_header {hdr : Bytes} {len : ℕ} (h4 : hdr.length = 4)
    (hlen : Pkt.parsePktLen hdr = .ok len) {r r' : Reader} {tail frame : Bytes}
    (hr : r.flatten = hdr ++ tail) (h : Pkt.readData r = .ok (some frame, r')) :
    4 ≤ len ∧ frame = tail.take (len - 4) ∧ r'.flatten = tail.drop (len - 4) := by
  obtain ⟨r₁, hread, hr₁⟩ := Pkt.readPktLine_header h4 hlen hr
  obtain ⟨hfirst, hrest⟩ := Framing.fill_spec (len - 4) r₁
  cases hfill : Framing.fill (len - 4) r₁ with
  | mk buf r₂ =>
    rw [hfill, hr₁] at hfirst hrest
    rw [Pkt.readData, hread, Pkt.readBody, hfill] at h
    dsimp only at h
    split_ifs at h with h0 h1 h2 h3 hshort <;> cases h
    exact ⟨by omega, hfirst, hrest⟩

/-- The first packet holds the first line up to its first newline. -/
theorem first_part (line rest : Bytes) : ∃ part after, newline ∉ part ∧
    splitInclusive (ended line ++ rest) = ended part :: after ∧
      (part = line ∧ after = splitInclusive rest ∨ part.length < line.length) := by
  by_cases h : newline ∈ line
  · obtain ⟨part, behind, rfl, hpart⟩ := List.eq_append_cons_of_mem h
    refine ⟨part, splitInclusive (ended behind ++ rest), hpart, ?_, .inr (by simp)⟩
    rw [← splitInclusive_line hpart, ended, ended, List.append_assoc, List.append_assoc,
      List.append_assoc, List.cons_append]
  · refine ⟨line, splitInclusive rest, h, ?_, .inl ⟨rfl, rfl⟩⟩
    rw [ended, List.append_assoc, List.singleton_append, splitInclusive_line h, ended]

theorem length_chomp_le (line : Bytes) : (chomp line).length ≤ line.length := by
  unfold chomp
  split_ifs
  · rw [List.length_dropLast]
    exact Nat.sub_le _ _
  · exact Nat.le_refl _

theorem length_ended (words : Bytes) : (ended words).length = words.length + 1 := by
  rw [ended, List.length_append, List.length_singleton]

/-- What is written in a line and what is read agree only on lines that are read back. -/
theorem fits_of_readFrames {words : List Bytes} {n : ℕ} {r r' : Reader} {frames : List Bytes}
    {rest : Bytes}
    (hr : r.flatten = (splitInclusive (words.flatMap ended)).flatMap Pkt.encodeData ++ rest)
    (hread : Framing.readFrames Pkt.readData n r = .ok (frames, r'))
    (hframes : frames.map chomp = words) : ∀ line ∈ words, Fits line := by
  induction words generalizing n r frames with
  | nil => exact fun line hline => by cases hline
  | cons line words ih =>
    obtain ⟨frame, frames, rfl, rfl, hwords⟩ := List.map_eq_cons_iff.mp hframes
    obtain ⟨m, r₁, hfirst, hrest⟩ := Framing.readFrames_cons hread
    obtain ⟨part, after, hpart, hsplit, hwhole⟩ :=
      first_part (chomp frame) (words.flatMap ended)
    rw [List.flatMap_cons, hsplit, List.flatMap_cons, Pkt.encodeData_eq, List.append_assoc,
      List.append_assoc] at hr
    have hmod : ((ended part).length + 4) % 65536 < 16 ^ 4 := Nat.mod_lt _ (by decide)
    obtain ⟨hlen, hframe, hr₁⟩ := readData_header (Pkt.length_hexDigits _ _)
      (Pkt.parsePktLen_hexDigits hmod) hr hfirst
    have hchomp := length_chomp_le frame
    have htake : frame.length ≤ ((ended part).length + 4) % 65536 - 4 := by
      rw [hframe]
      exact List.length_take_le _ _
    have hle : part.length ≤ (chomp frame).length := by
      rcases hwhole with ⟨rfl, -⟩ | hlt
      · exact Nat.le_refl _
      · exact Nat.le_of_lt hlt
    rw [length_ended] at hlen htake
    -- a longer packet would lose its head, and what is left of it is too short
    have hshort : (ended part).length + 4 < 65536 := by
      rw [length_ended]
      omega
    rw [Nat.mod_eq_of_lt hshort, Nat.add_sub_cancel, List.take_left] at hframe
    rw [Nat.mod_eq_of_lt hshort, Nat.add_sub_cancel, List.drop_left] at hr₁
    rcases hwhole with ⟨hline, rfl⟩ | hlt
    · rw [List.forall_mem_cons, ← hline]
      exact ⟨⟨hpart, hshort⟩, ih hr₁ hrest hwords⟩
    · rw [hframe, chomp_ended] at hlt
      exact absurd hlt (Nat.lt_irrefl _)

/-- Lines are read back just if each of them can be. -/
theorem readFrames_lines (words : List Bytes) (rest : Bytes) :
    (∃ frames, readFrames ((splitInclusive (words.flatMap ended)).flatMap Pkt.encodeData ++
        (Pkt.encode .flush ++ rest)) = some frames ∧ frames.map chomp = words) ↔
      ∀ line ∈ words, Fits line := by
  constructor
  · rintro ⟨frames, hread, hframes⟩
    obtain ⟨r, hread⟩ := readFrames_eq_some.mp hread
    exact fits_of_readFrames (List.flatten_singleton) hread hframes
  · intro h
    have hfits : ∀ line ∈ words.map ended, (Line.data line).Fits := by
      intro line hline
      obtain ⟨line, hmem, rfl⟩ := List.mem_map.mp hline
      exact (h line hmem).2
    refine ⟨words.map ended, ?_, ?_⟩
    · rw [splitInclusive_lines fun line hline => (h line hline).1,
        List.flatMap_congr fun line hline => Pkt.encodeData_fits (hfits line hline)]
      exact readFrames_flush hfits rest
    · rw [List.map_map]
      exact (List.map_congr_left fun line _ => chomp_ended line).trans (List.map_id words)

end Wire

section Outcome

/-- What can be reported: messages and names of one line, a refused name of one word, and lines
that fit in a packet. -/
structure Writable (unpack : Option String) (perRef : List Status) : Prop where
  messages : ∀ message ∈ messages unpack perRef, '\n' ∉ message.toList
  names : ∀ s ∈ perRef, '\n' ∉ s.1.toList ∧ (s.2.isSome → ' ' ∉ s.1.toList)
  lengths : ∀ line ∈ reportWords unpack perRef, line.length ≤ 65530

theorem newline_mem (text : String) : newline ∈ bytes text ↔ '\n' ∈ text.toList :=
  Utf8.mem_encode (d := '\n') (by decide)

theorem blank_mem (text : String) : blank ∈ bytes text ↔ ' ' ∈ text.toList :=
  Utf8.mem_encode (d := ' ') (by decide)

theorem newline_mem_unpackWords (unpack : Option String) :
    newline ∉ unpackWords unpack ↔ ∀ message ∈ unpack.toList, '\n' ∉ message.toList := by
  cases unpack with
  | none =>
    have hok : newline ∉ unpackWords none := by decide
    simp [hok]
  | some message =>
    have hng : newline ∉ bytes "unpack ng " := by decide
    change newline ∉ bytes "unpack ng " ++ bytes message ↔ _
    rw [List.mem_append, not_or, newline_mem message]
    simp [hng]

theorem newline_mem_statusWords (s : Status) : newline ∉ statusWords s ↔
    '\n' ∉ s.1.toList ∧ ∀ message, s.2 = some message → '\n' ∉ message.toList := by
  obtain ⟨name, reason⟩ := s
  cases reason with
  | none =>
    have hok : newline ∉ bytes "ok " := by decide
    change newline ∉ bytes "ok " ++ bytes name ↔ _
    rw [List.mem_append, not_or, newline_mem name]
    simp [hok]
  | some message =>
    have hng : newline ∉ bytes "ng " := by decide
    change newline ∉ bytes "ng " ++ bytes name ++ blank :: bytes message ↔ _
    have hne : newline ≠ blank := by decide
    rw [List.mem_append, List.mem_append, List.mem_cons, newline_mem name, newline_mem message]
    simp [hng, hne]

theorem fits_iff (words : Bytes) : Fits words ↔ newline ∉ words ∧ words.length ≤ 65530 := by
  refine and_congr_right fun _ => ?_
  change (ended words).length + 4 < 65536 ↔ _
  rw [length_ended]
  omega

theorem writable_iff (unpack : Option String) (perRef : List Status) : Writable unpack perRef ↔
    (∀ line ∈ reportWords unpack perRef, Fits line) ∧
      ∀ s ∈ perRef, s.2.isSome → blank ∉ bytes s.1 := by
  have hlines : (∀ line ∈ reportWords unpack perRef, newline ∉ line) ↔
      (∀ message ∈ Report.messages unpack perRef, '\n' ∉ message.toList) ∧
        ∀ s ∈ perRef, '\n' ∉ s.1.toList := by
    rw [reportWords, List.forall_mem_cons, newline_mem_unpackWords, List.forall_mem_map,
      Report.messages, List.forall_mem_append]
    simp only [newline_mem_statusWords, List.mem_filterMap]
    constructor
    · rintro ⟨hunpack, hrefs⟩
      refine ⟨⟨hunpack, ?_⟩, fun s hs => (hrefs s hs).1⟩
      rintro message ⟨s, hs, heq⟩
      exact (hrefs s hs).2 message heq
    · rintro ⟨⟨hunpack, hmessages⟩, hnames⟩
      exact ⟨hunpack, fun s hs => ⟨hnames s hs, fun message heq => hmessages message ⟨s, hs, heq⟩⟩⟩
  simp only [fits_iff, blank_mem]
  constructor
  · rintro ⟨hmessages, hnames, hlengths⟩
    have := hlines.mpr ⟨hmessages, fun s hs => (hnames s hs).1⟩
    exact ⟨fun line hline => ⟨this line hline, hlengths line hline⟩, fun s hs => (hnames s hs).2⟩
  · rintro ⟨hfits, hblank⟩
    obtain ⟨hmessages, hnames⟩ := hlines.mp fun line hline => (hfits line hline).1
    exact ⟨hmessages, fun s hs => ⟨hnames s hs, hblank s hs⟩, fun line hline => (hfits line hline).2⟩

/-- The packets of a report say what was reported just if it can be. -/
theorem decodeReport_framed (unpack : Option String) (perRef : List Status) :
    decodeReport (framed unpack perRef) =
        some ⟨unpack.map bytes, perRef.map fun s => (bytes s.1, s.2.map bytes)⟩ ↔
      Writable unpack perRef := by
  have hlines := readFrames_lines (reportWords unpack perRef) []
  rw [List.append_nil] at hlines
  rw [decodeReport_iff, framed, encode_body, hlines, writable_iff]

/-- A band of the report, or one that is only shown. -/
def Shown (frame : Bytes) : Prop := ∃ rest, frame = Channel.data.byte :: rest ∨
  frame = Channel.progress.byte :: rest

def reported (frames : List Bytes) : Bytes :=
  frames.flatMap fun frame => (Line.data frame).on .data

theorem demuxFrame_iff (acc frame data : Bytes) : demuxFrame acc frame = some data ↔
    Shown frame ∧ data = acc ++ (Line.data frame).on .data := by
  cases frame with
  | nil => simp [demuxFrame, Shown]
  | cons b rest =>
    rw [demuxFrame, Line.on, Shown]
    split_ifs with hdata hprogress
    · simp [hdata, eq_comm]
    · simp [hprogress, eq_comm, Channel.byte]
    · simp [hdata, hprogress]

theorem demux_iff (frames : List Bytes) (data : Bytes) :
    demux frames = some data ↔ (∀ frame ∈ frames, Shown frame) ∧ data = reported frames := by
  suffices ∀ acc, frames.foldlM demuxFrame acc = some data ↔
      (∀ frame ∈ frames, Shown frame) ∧ data = acc ++ reported frames from this []
  induction frames with
  | nil => simp [reported, eq_comm]
  | cons frame frames ih =>
    intro acc
    rw [List.foldlM_cons, List.forall_mem_cons, reported, List.flatMap_cons, ← reported,
      ← List.append_assoc]
    cases hframe : demuxFrame acc frame with
    | none =>
      have hshown : ¬ Shown frame := fun h => by
        rw [(demuxFrame_iff acc frame _).mpr ⟨h, rfl⟩] at hframe
        cases hframe
      simp [hshown]
    | some next =>
      obtain ⟨hshown, rfl⟩ := (demuxFrame_iff acc frame next).mp hframe
      simp [ih, hshown]

/-- What a client reads in the bands of a response. -/
theorem decode_bands {caps : Caps} (h : caps.sideBand64k = true) {frames : List Bytes}
    (hfits : ∀ frame ∈ frames, (Line.data frame).Fits) (decoded : Decoded) :
    decode caps (frames.flatMap Pkt.dataFrame ++ Pkt.encode .flush) = some decoded ↔
      (∀ frame ∈ frames, Shown frame) ∧ decodeReport (reported frames) = some decoded := by
  have hread := readFrames_flush hfits []
  rw [List.append_nil] at hread
  rw [decode, if_pos h, hread]
  simp only [Option.bind_eq_bind, Option.bind_some, Option.bind_eq_some_iff, demux_iff]
  constructor
  · rintro ⟨data, ⟨hshown, rfl⟩, hdecode⟩
    exact ⟨hshown, hdecode⟩
  · rintro ⟨hshown, hdecode⟩
    exact ⟨_, ⟨hshown, rfl⟩, hdecode⟩

theorem onChannels_bands {frames : List Bytes}
    (hfits : ∀ frame ∈ frames, (Line.data frame).Fits) (h : ∀ frame ∈ frames, Shown frame) :
    OnChannels (frames.flatMap Pkt.dataFrame ++ Pkt.encode .flush) := by
  have hread := readFrames_flush hfits []
  rw [List.append_nil] at hread
  refine ⟨frames, hread, fun frame hframe => ?_⟩
  obtain ⟨rest, rfl | rfl⟩ := h frame hframe
  · exact ⟨.data, rest, rfl⟩
  · exact ⟨.progress, rest, rfl⟩

theorem faithful_bands {caps : Caps} (h : caps.sideBand64k = true) {frames : List Bytes}
    (hfits : ∀ frame ∈ frames, (Line.data frame).Fits) (unpack : Option String)
    (perRef : List Status) :
    Faithful caps unpack perRef (frames.flatMap Pkt.dataFrame ++ Pkt.encode .flush) ↔
      (∀ frame ∈ frames, Shown frame) ∧ decodeReport (reported frames) =
        some ⟨unpack.map bytes, perRef.map fun s => (bytes s.1, s.2.map bytes)⟩ := by
  rw [Faithful, decode_bands h hfits]
  exact ⟨And.left, fun hread => ⟨hread, fun _ => onChannels_bands hfits hread.1⟩⟩

theorem buildReport_bands {caps : Caps} (h : caps.sideBand64k = true) (unpack : Option String)
    (perRef : List Status) : buildReport caps unpack perRef =
      (Pkt.bandFrames .data (framed unpack perRef)).flatMap Pkt.dataFrame ++
        Pkt.encode .flush := by
  rw [buildReport, reportStatus, if_pos h]
  exact congrArg₂ (· ++ ·) (Pkt.flatten_writeChannel _ _) (List.flatten_singleton)

/-- A report is read as it was meant just if it can be written. -/
theorem buildReport_faithful_iff (caps : Caps) (unpack : Option String) (perRef : List Status) :
    Faithful caps unpack perRef (buildReport caps unpack perRef) ↔ Writable unpack perRef := by
  by_cases h : caps.sideBand64k = true
  · have hshown : ∀ frame ∈ Pkt.bandFrames .data (framed unpack perRef), Shown frame :=
      fun frame hframe => (Pkt.mem_bandFrames hframe).imp fun rest heq => .inl heq
    have hreported : reported (Pkt.bandFrames .data (framed unpack perRef)) =
        framed unpack perRef := Pkt.bandFrames_on .data _
    rw [buildReport_bands h, faithful_bands h Pkt.bandFrames_fits, hreported, decodeReport_framed]
    exact and_iff_right hshown
  · rw [Faithful, decode, if_neg h, buildReport, reportStatus, if_neg h, decodeReport_framed]
    exact and_iff_left fun hband => absurd hband h

end Outcome

section Refusal

/-- The packets that tell a refusal. -/
def told (msg : String) : List Bytes := Framing.chunks maxDataLen (2 :: ended (bytes msg))

theorem told_fits (msg : String) : ∀ frame ∈ told msg, (Line.data frame).Fits := by
  intro frame hframe
  have hle : frame.length ≤ 65516 := (Framing.mem_chunks (by decide) hframe).2
  exact (by omega : frame.length + 4 < 65536)

theorem bytes_ended (msg : String) : bytes (msg ++ "\n") = ended (bytes msg) := by
  rw [bytes_eq, String.toList_append, (by decide : "\n".toList = ['\n']), encode_newline,
    bytes_eq]

theorem sidebandPkt_told (msg : String) :
    sidebandPkt 2 (msg ++ "\n") = some ((told msg).flatMap Pkt.dataFrame) := by
  have hends : Text.endsWith "\n" (msg ++ "\n") = true := by
    rw [Text.endsWith, String.toList_append]
    exact List.isSuffixOf_iff_suffix.mpr (List.suffix_append _ _)
  have hlines : (told msg).mapM encodeLine = some ((told msg).map Pkt.dataFrame) := by
    refine Checks.mapM_eq_some_map fun frame hframe => ?_
    rw [encodeLine, if_pos (Framing.mem_chunks (by decide) hframe).2,
      Pkt.encodeData_fits (told_fits msg frame hframe)]
  rw [sidebandPkt, if_pos hends, List.append_nil, bytes_ended, ← told, hlines, Option.map_some,
    List.flatMap_def]

/-- The second packet, if the message needs one, begins with the byte of the channel. -/
def OnSecondBand (msg : String) : Prop :=
  (bytes msg).length < 65515 ∨ (bytes msg)[65515]? = some 2

/-- What a refusal consists of. -/
def bands (unpack : Option String) (perRef : List Status) (msg : String) : List Bytes :=
  told msg ++ Pkt.bandFrames .data (framed unpack perRef)

def refused (t : RefTransaction) (msg : String) : List Status :=
  t.updates.map fun u => (u.name, some msg)

theorem refusalReport_bands {caps : Caps} (h : caps.sideBand64k = true) (t : RefTransaction)
    (msg : String) : refusalReport caps t msg =
      some ((bands (some msg) (refused t msg) msg).flatMap Pkt.dataFrame ++
        Pkt.encode .flush) := by
  rw [refusalReport]
  dsimp only
  rw [if_pos h, sidebandPkt_told, Option.bind_eq_bind, Option.bind_some, buildReport_bands h,
    bands, List.flatMap_append, List.append_assoc]
  rfl

theorem readData_frame {r r' : Reader} {frame : Bytes}
    (h : Pkt.readData r = .ok (some frame, r')) :
    ∃ hdr, r.flatten = hdr ++ frame ++ r'.flatten ∧ hdr.length = 4 ∧ frame.length + 4 < 65536 ∧
      ∀ b ∈ hdr, (Pkt.hexValue b).isSome := by
  unfold Pkt.readData at h
  split at h
  · cases h
  · rename_i b r₁ hread
    cases h
    obtain ⟨whole, hwhole, hdr, h4, hlen, rfl⟩ := Pkt.readPktLine_framed hread
    obtain ⟨hlt, hdigits⟩ := Pkt.parsePktLen_eq_ok hlen
    rw [h4] at hlt
    exact ⟨hdr, hwhole, h4, hlt, hdigits⟩
  · cases h

theorem chomp_prefix (line : Bytes) : chomp line <+: line := by
  unfold chomp
  split_ifs
  · exact List.dropLast_prefix line
  · exact List.prefix_rfl

/-- The packet of a refusal's first line: its text begins behind the header. -/
theorem first_packet {data : Bytes} {lines : List Bytes} {msg : String} {perRef : List Status}
    (hread : readFrames data = some lines)
    (hlines : lines.map chomp = reportWords (some msg) perRef) :
    (bytes msg).length ≤ 65521 ∧ ∃ hdr more, data = hdr ++ [117, 110] ++ more ∧
      hdr.length = 4 ∧ ∀ b ∈ hdr, (Pkt.hexValue b).isSome := by
  obtain ⟨first, rest, rfl, hfirst, -⟩ := List.map_eq_cons_iff.mp hlines
  obtain ⟨r, hframes⟩ := readFrames_eq_some.mp hread
  obtain ⟨n, r₁, hdata, -⟩ := Framing.readFrames_cons hframes
  obtain ⟨hdr, hsplit, h4, hlt, hdigits⟩ := readData_frame hdata
  obtain ⟨ending, hending⟩ := chomp_prefix first
  have hwords : chomp first = bytes "unpack ng " ++ bytes msg := hfirst
  rw [hwords, bytes_unpackNg] at hending
  constructor
  · rw [← hending] at hlt
    simp only [List.length_append, List.length_cons, List.length_nil] at hlt
    omega
  · rw [List.flatten_singleton, ← hending] at hsplit
    exact ⟨hdr, [112, 97, 99, 107, 32] ++ [110, 103, 32] ++ bytes msg ++ ending ++ r₁.flatten,
      by rw [hsplit]; simp, h4, hdigits⟩

/-- No line of a few bytes precedes the report. -/
theorem not_preceded {pre rest : Bytes} (hpre : pre.length ≤ 5) {lines : List Bytes} {msg : String}
    {perRef : List Status} (hread : readFrames (pre ++ newline :: rest) = some lines) :
    lines.map chomp ≠ reportWords (some msg) perRef := by
  intro hlines
  obtain ⟨-, hdr, more, hdata, h4, hdigits⟩ := first_packet hread hlines
  have hmem : newline ∈ hdr ++ [117, 110] := by
    have hget : (hdr ++ [117, 110] ++ more)[pre.length]? = some newline := by
      rw [← hdata]
      simp
    rw [List.getElem?_append_left (by simp [h4]; omega)] at hget
    exact List.mem_of_getElem? hget
  rw [List.mem_append] at hmem
  rcases hmem with hmem | hmem
  · exact absurd (hdigits _ hmem) (by decide)
  · exact absurd hmem (by decide)

theorem told_short {msg : String} (h : (bytes msg).length < 65515) :
    told msg = [2 :: ended (bytes msg)] := by
  refine Framing.chunks_of_le (List.cons_ne_nil _ _) ?_
  rw [List.length_cons, length_ended, maxDataLen]
  omega

theorem told_long {msg : String} (h : 65515 ≤ (bytes msg).length)
    (hle : (bytes msg).length ≤ 65521) : told msg =
      [2 :: (ended (bytes msg)).take 65515, (ended (bytes msg)).drop 65515] := by
  refine Framing.chunks_two ?_ ?_
  · rw [List.length_cons, length_ended, maxDataLen]
    omega
  · rw [List.length_cons, length_ended, maxDataLen]
    omega

theorem shown_iff (b : UInt8) (rest : Bytes) : Shown (b :: rest) ↔ b = 1 ∨ b = 2 := by
  constructor
  · rintro ⟨after, heq | heq⟩
    · exact .inl (List.cons.inj heq).1
    · exact .inr (List.cons.inj heq).1
  · rintro (rfl | rfl)
    · exact ⟨rest, .inl rfl⟩
    · exact ⟨rest, .inr rfl⟩

/-- A message that is told in two packets is told as it should be if the second one begins with
the byte of the channel too; if it begins with the one of the report, the report is lost. -/
theorem told_long_iff {msg : String} (h : 65515 ≤ (bytes msg).length)
    (hle : (bytes msg).length ≤ 65521) (perRef : List Status) (rest : Bytes) :
    ((∀ frame ∈ told msg, Shown frame) ∧ ∃ lines,
        readFrames (reported (told msg) ++ rest) = some lines ∧
          lines.map chomp = reportWords (some msg) perRef) ↔
      (bytes msg)[65515]? = some 2 ∧ ∃ lines, readFrames rest = some lines ∧
        lines.map chomp = reportWords (some msg) perRef := by
  have hsecond : (ended (bytes msg)).drop 65515 = ended ((bytes msg).drop 65515) :=
    List.drop_append_of_le_length h
  rw [told_long h hle, hsecond, List.forall_mem_cons, List.forall_mem_singleton, shown_iff,
    ← List.head?_drop]
  have hmid : ((bytes msg).drop 65515).length ≤ 6 := by
    rw [List.length_drop]
    omega
  cases hdrop : (bytes msg).drop 65515 with
  | nil =>
    refine iff_of_false ?_ ?_
    · rintro ⟨⟨-, hshown⟩, -⟩
      exact absurd ((shown_iff newline []).mp hshown) (by decide)
    · rintro ⟨hhead, -⟩
      cases hhead
  | cons b tail =>
    rw [hdrop, List.length_cons] at hmid
    have hreported : reported [2 :: (ended (bytes msg)).take 65515, ended (b :: tail)] =
        if b = 1 then ended tail else [] := List.append_nil _
    rw [List.head?_cons, Option.some.injEq, hreported]
    change (_ ∧ Shown (b :: ended tail)) ∧ _ ↔ _
    rw [shown_iff]
    by_cases h1 : b = 1
    · -- the rest of the message comes before the packets of the report
      refine iff_of_false ?_ ?_
      · rintro ⟨-, lines, hread, hlines⟩
        rw [if_pos h1, ended, List.append_assoc, List.singleton_append] at hread
        exact not_preceded (by omega) hread hlines
      · rintro ⟨h2, -⟩
        rw [h1] at h2
        exact absurd h2 (by decide)
    · rw [if_neg h1, List.nil_append]
      constructor
      · rintro ⟨⟨-, hb⟩, hlines⟩
        exact ⟨hb.resolve_left h1, hlines⟩
      · rintro ⟨hb, hlines⟩
        exact ⟨⟨.inr rfl, .inr hb⟩, hlines⟩

theorem told_short_iff {msg : String} (h : (bytes msg).length < 65515) (perRef : List Status)
    (rest : Bytes) :
    ((∀ frame ∈ told msg, Shown frame) ∧ ∃ lines,
        readFrames (reported (told msg) ++ rest) = some lines ∧
          lines.map chomp = reportWords (some msg) perRef) ↔
      ∃ lines, readFrames rest = some lines ∧
        lines.map chomp = reportWords (some msg) perRef := by
  rw [told_short h, List.forall_mem_singleton, shown_iff]
  exact and_iff_right (.inr rfl)

/-- What is told before a report leaves it as it is just if it is told on the second channel. -/
theorem told_iff (msg : String) (perRef : List Status) (rest : Bytes) :
    ((∀ frame ∈ told msg, Shown frame) ∧ ∃ lines,
        readFrames (reported (told msg) ++ rest) = some lines ∧
          lines.map chomp = reportWords (some msg) perRef) ↔
      (∃ lines, readFrames rest = some lines ∧
        lines.map chomp = reportWords (some msg) perRef) ∧ OnSecondBand msg := by
  by_cases hshort : (bytes msg).length < 65515
  · rw [told_short_iff hshort]
    exact (and_iff_left (.inl hshort)).symm
  by_cases hle : (bytes msg).length ≤ 65521
  · rw [told_long_iff (by omega) hle, and_comm]
    exact and_congr_right fun _ => ⟨.inr, fun h => h.resolve_left hshort⟩
  · refine iff_of_false ?_ ?_
    · rintro ⟨-, lines, hread, hlines⟩
      exact hle (first_packet hread hlines).1
    · rintro ⟨⟨lines, hread, hlines⟩, -⟩
      exact hle (first_packet hread hlines).1

/-- A refusal is read as it was meant just if it can be written, and its message told. -/
theorem refusalReport_faithful_iff (caps : Caps) (t : RefTransaction) (msg : String) :
    (∃ out, refusalReport caps t msg = some out ∧
        Faithful caps (some msg) (refused t msg) out) ↔
      Writable (some msg) (refused t msg) ∧ (caps.sideBand64k → OnSecondBand msg) := by
  by_cases h : caps.sideBand64k = true
  · have hfits : ∀ frame ∈ bands (some msg) (refused t msg) msg, (Line.data frame).Fits := by
      rw [bands, List.forall_mem_append]
      exact ⟨told_fits msg, Pkt.bandFrames_fits⟩
    have hshown : ∀ frame ∈ Pkt.bandFrames .data (framed (some msg) (refused t msg)),
        Shown frame :=
      fun frame hframe => (Pkt.mem_bandFrames hframe).imp fun rest heq => .inl heq
    have hframed : reported (Pkt.bandFrames .data (framed (some msg) (refused t msg))) =
        framed (some msg) (refused t msg) := Pkt.bandFrames_on .data _
    have hreported : reported (bands (some msg) (refused t msg) msg) =
        reported (told msg) ++ framed (some msg) (refused t msg) := by
      rw [reported, bands, List.flatMap_append, ← reported, ← reported, hframed]
    rw [refusalReport_bands h]
    simp only [Option.some.injEq, exists_eq_left', faithful_bands h hfits, hreported]
    rw [← decodeReport_framed, decodeReport_iff, decodeReport_iff, bands, List.forall_mem_append,
      and_iff_left hshown, ← and_assoc, told_iff, and_right_comm]
    exact and_congr_right fun _ => ⟨fun hband _ => hband, fun hband => hband h⟩
  · have hreport : refusalReport caps t msg = some (buildReport caps (some msg) (refused t msg)) := by
      rw [refusalReport]
      dsimp only
      rw [if_neg h]
      rfl
    simp only [hreport, Option.some.injEq, exists_eq_left', buildReport_faithful_iff]
    exact (and_iff_left fun hband => absurd hband h).symm

/-- The report of a push, and the report of a refusal, are read as they were meant just if what
they say can be written; no other report is. -/
theorem report_faithful_iff (caps : Caps) :
    (∀ unpack perRef, Faithful caps unpack perRef (buildReport caps unpack perRef) ↔
      Writable unpack perRef) ∧
    ∀ t msg, (∃ out, refusalReport caps t msg = some out ∧
        Faithful caps (some msg) (refused t msg) out) ↔
      Writable (some msg) (refused t msg) ∧ (caps.sideBand64k → OnSecondBand msg) :=
  ⟨buildReport_faithful_iff caps, refusalReport_faithful_iff caps⟩

/-- A push of a pack that git finds to be corrupt: the message ends as git's output does. -/
theorem refusalReport_lost :
    let caps : Caps := { reportStatus := true, sideBand64k := true }
    let t : RefTransaction :=
      ⟨[⟨"refs/heads/main", Text.repeated '0', Text.repeated 'c', ""⟩], [], false⟩
    let msg := "unpack failed: subprocess `git index-pack` exited Some(128): fatal: pack is corrupt\n"
    ∃ out, refusalReport caps t msg = some out ∧
      ¬ Faithful caps (some msg) (refused t msg) out := by
  intro caps t msg
  refine ⟨_, refusalReport_bands rfl t msg, fun hfaithful => ?_⟩
  obtain ⟨hwritable, -⟩ := (refusalReport_faithful_iff caps t msg).mp
    ⟨_, refusalReport_bands rfl t msg, hfaithful⟩
  exact hwritable.messages msg List.mem_cons_self (by decide)

end Refusal

end Walgit.Report
