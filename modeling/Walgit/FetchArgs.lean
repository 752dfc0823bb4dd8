import Mathlib.Data.List.TakeWhile
import Walgit.GcsGet
import Walgit.PackGroups
import Walgit.Pkt
import Walgit.UploadPack
import Walgit.Utf8

/-!
# The arguments of a fetch

The argument lines of a protocol v2 fetch are read into a request, and the request is written as
argument lines again for the stock git backend. What the lines say is stated on their bytes.
-/
namespace Walgit.FetchArgs

open Policy (bytes)
open Pkt (Bytes Line Reader Error)
open Receive (trimEndNewlines)

structure UploadPackRequest where
  wants : List Oid := []
  haves : List Oid := []
  done : Bool := false
  thinPack : Bool := false
  noProgress : Bool := false
  includeTag : Bool := false
  ofsDelta : Bool := false
  sidebandAll : Bool := false
  waitForDone : Bool := false
  filter : Option String := none
  deepen : Option ℕ := none
  deepenSince : Option ℤ := none
  deepenNot : List String := []
  shallow : List Oid := []
  wantRefs : List String := []
  packfileUrisProtocols : List String := []
  packfileIndexes : Bool := false
  deriving DecidableEq, Repr

/-- What an argument line begins with. -/
inductive Word where
  | wants
  | haves
  | done
  | thinPack
  | noProgress
  | includeTag
  | ofsDelta
  | sidebandAll
  | waitForDone
  | filter
  | deepen
  | deepenSince
  | deepenNot
  | deepenRelative
  | shallow
  | wantRef
  | packfileUris
  | packfileIndexes
  deriving DecidableEq, Repr

def Word.name : Word → String
  | .wants => "want"
  | .haves => "have"
  | .done => "done"
  | .thinPack => "thin-pack"
  | .noProgress => "no-progress"
  | .includeTag => "include-tag"
  | .ofsDelta => "ofs-delta"
  | .sidebandAll => "sideband-all"
  | .waitForDone => "wait-for-done"
  | .filter => "filter"
  | .deepen => "deepen"
  | .deepenSince => "deepen-since"
  | .deepenNot => "deepen-not"
  | .deepenRelative => "deepen-relative"
  | .shallow => "shallow"
  | .wantRef => "want-ref"
  | .packfileUris => "packfile-uris"
  | .packfileIndexes => "packfile-indexes"

/-- What follows a word and a separator. -/
def stripWord {α : Type} [DecidableEq α] (sep : α) (word s : List α) : Option (List α) :=
  if (word ++ [sep]).isPrefixOf s then some (s.drop (word ++ [sep]).length) else none

section Reading

def Word.text (w : Word) : List Char := w.name.toList

def Word.strip (w : Word) (s : List Char) : Option (List Char) := stripWord ' ' w.text s

/-- One argument line; lines with other words are passed over. -/
def takeLine (req : UploadPackRequest) (b : Bytes) : UploadPackRequest :=
  let s := trimEndNewlines (Utf8.decode b)
  if let some hex := Word.wants.strip s then
    { req with wants := req.wants ++ (fromHex (String.ofList hex)).toList }
  else if let some hex := Word.haves.strip s then
    { req with haves := req.haves ++ (fromHex (String.ofList hex)).toList }
  else if s = Word.done.text then { req with done := true }
  else if s = Word.thinPack.text then { req with thinPack := true }
  else if s = Word.noProgress.text then { req with noProgress := true }
  else if s = Word.includeTag.text then { req with includeTag := true }
  else if s = Word.ofsDelta.text then { req with ofsDelta := true }
  else if s = Word.sidebandAll.text then { req with sidebandAll := true }
  else if s = Word.waitForDone.text then { req with waitForDone := true }
  else if let some spec := Word.filter.strip s then
    { req with filter := some (String.ofList spec) }
  else if let some n := Word.deepen.strip s then
    { req with deepen := parseUnsigned (2 ^ 32) n }
  else if let some t := Word.deepenSince.strip s then
    { req with deepenSince := Gcs.parseI64 (String.ofList t) }
  else if let some r := Word.deepenNot.strip s then
    { req with deepenNot := req.deepenNot ++ [String.ofList r] }
  else if let some hex := Word.shallow.strip s then
    { req with shallow := req.shallow ++ (fromHex (String.ofList hex)).toList }
  else if let some r := Word.wantRef.strip s then
    { req with wantRefs := req.wantRefs ++ [String.ofList r] }
  else if let some p := Word.packfileUris.strip s then
    { req with packfileUrisProtocols := (p.splitOn ',').map String.ofList }
  else if s = Word.packfileIndexes.text then { req with packfileIndexes := true }
  else req

def parseFetchRequest (r : Reader) : Except Error (UploadPackRequest × Reader) :=
  Pkt.foldSection (fun req b => .ok (takeLine req b)) {} r

end Reading

section Writing

/-- A line with a word alone. -/
def Word.flag (w : Word) (set : Bool) : List (List Char) := if set then [w.text ++ ['\n']] else []

/-- A line for each value behind the same word. -/
def Word.values (w : Word) (values : List (List Char)) : List (List Char) :=
  values.map fun value => w.text ++ ' ' :: value ++ ['\n']

def decimal : ℤ → List Char
  | .ofNat n => Nat.toDigits 10 n
  | .negSucc n => '-' :: Nat.toDigits 10 (n + 1)

/-- The argument lines of a request. -/
def arguments (req : UploadPackRequest) : List (List Char) :=
  Word.thinPack.flag req.thinPack ++
  Word.ofsDelta.flag req.ofsDelta ++
  Word.noProgress.flag req.noProgress ++
  Word.includeTag.flag req.includeTag ++
  Word.sidebandAll.flag req.sidebandAll ++
  Word.waitForDone.flag req.waitForDone ++
  Word.filter.values (req.filter.toList.map String.toList) ++
  Word.wants.values (req.wants.map String.toList) ++
  Word.haves.values (req.haves.map String.toList) ++
  Word.shallow.values (req.shallow.map String.toList) ++
  Word.deepen.values (req.deepen.toList.map (Nat.toDigits 10)) ++
  Word.deepenSince.values (req.deepenSince.toList.map decimal) ++
  Word.deepenNot.values (req.deepenNot.map String.toList) ++
  Word.wantRef.values (req.wantRefs.map String.toList) ++
  (if req.packfileUrisProtocols.isEmpty then []
    else Word.packfileUris.values
      [[','].intercalate (req.packfileUrisProtocols.map String.toList)]) ++
  Word.done.flag req.done

/-- Whether the object is named by SHA-256, by the length of its id. -/
def isSha256 (oid : Oid) : Bool := oid.utf8ByteSize = 64

/-- The lines in front of the arguments. -/
def preamble (req : UploadPackRequest) : List String :=
  "command=fetch\n" ::
    if (req.wants.head? <|> req.haves.head? <|> req.shallow.head?).any isSha256 then
      ["object-format=sha256\n"]
    else []

def buildV2FetchRequest (req : UploadPackRequest) : Bytes :=
  (preamble req).flatMap (fun line => Pkt.encodeData (bytes line)) ++ Pkt.encode .delim ++
    (arguments req).flatMap (fun line => Pkt.encodeData (Utf8.encode line)) ++ Pkt.encode .flush

/-- The URIs are served by the server itself. -/
def UploadPackRequest.clearUris (req : UploadPackRequest) : UploadPackRequest :=
  { req with packfileUrisProtocols := [] }

end Writing

section Meaning

/-- A line without the newlines at its end. -/
def chomp (b : Bytes) : Bytes := b.rdropWhile (· = 10)

def Word.bytes (w : Word) : Bytes := Utf8.encode w.text

def Word.present (w : Word) (lines : List Bytes) : Bool := w.bytes ∈ lines.map chomp

/-- What the lines with a word have behind it. -/
def Word.payloads (w : Word) (lines : List Bytes) : List Bytes :=
  (lines.map chomp).filterMap (stripWord 32 w.bytes)

def oidOf (b : Bytes) : Option Oid := fromHex (String.ofList (Utf8.decode b))

/-- A decimal number of any size. -/
def numeral (digits : List Char) : Option ℕ :=
  if digits.isEmpty || !digits.all Char.isDigit then none
  else some (digits.foldl (fun n c => 10 * n + (c.toNat - 48)) 0)

def unsigned : List Char → Option ℕ
  | '+' :: digits => numeral digits
  | digits => numeral digits

def signed : List Char → Option ℤ
  | '-' :: digits => (numeral digits).map fun n : ℕ => -(n : ℤ)
  | '+' :: digits => (numeral digits).map fun n : ℕ => (n : ℤ)
  | digits => (numeral digits).map fun n : ℕ => (n : ℤ)

def natOf (b : Bytes) : Option ℕ := unsigned (Utf8.decode b)

def intOf (b : Bytes) : Option ℤ := signed (Utf8.decode b)

/-- What the lines of a fetch ask for. -/
@[ext]
structure Meaning where
  wants : List (Option Oid)
  haves : List (Option Oid)
  shallow : List (Option Oid)
  wantRefs : List Bytes
  done : Bool
  thinPack : Bool
  noProgress : Bool
  includeTag : Bool
  ofsDelta : Bool
  sidebandAll : Bool
  waitForDone : Bool
  filter : Option Bytes
  deepen : Option (Option ℕ)
  deepenSince : Option (Option ℤ)
  deepenNot : List Bytes
  deepenRelative : Bool
  deriving DecidableEq

def meaning (lines : List Bytes) : Meaning where
  wants := (Word.wants.payloads lines).map oidOf
  haves := (Word.haves.payloads lines).map oidOf
  shallow := (Word.shallow.payloads lines).map oidOf
  wantRefs := Word.wantRef.payloads lines
  done := Word.done.present lines
  thinPack := Word.thinPack.present lines
  noProgress := Word.noProgress.present lines
  includeTag := Word.includeTag.present lines
  ofsDelta := Word.ofsDelta.present lines
  sidebandAll := Word.sidebandAll.present lines
  waitForDone := Word.waitForDone.present lines
  filter := (Word.filter.payloads lines).getLast?
  deepen := (Word.deepen.payloads lines).getLast?.map natOf
  deepenSince := (Word.deepenSince.payloads lines).getLast?.map intOf
  deepenNot := Word.deepenNot.payloads lines
  deepenRelative := Word.deepenRelative.present lines

def readLines (r : Reader) : Except Error (List Bytes × Reader) :=
  Pkt.foldSection (fun lines b => .ok (lines ++ [b])) [] r

/-- A fetch as its backend reads it: what is in front of the arguments, and they. -/
def readRequest (b : Bytes) : Except Error (List Bytes × List Bytes) := do
  let (head, r) ← readLines [b]
  let (lines, _) ← readLines r
  pure (head, lines)

/-- The backend reads the lines of the request, and they ask for what the client asked for. -/
def Carries (req : UploadPackRequest) (lines : List Bytes) : Prop :=
  readRequest (buildV2FetchRequest req) =
      .ok ((preamble req).map bytes, (arguments req).map Utf8.encode) ∧
    meaning ((arguments req).map Utf8.encode) = meaning lines

/-- A text that can be written again: it is UTF-8, and the line fits in a packet. -/
def Word.Writable (w : Word) (b : Bytes) : Prop :=
  (∃ text, b = Utf8.encode text) ∧ w.bytes.length + b.length + 6 < 65536

/-- What the lines have to keep to. -/
structure Kept (lines : List Bytes) : Prop where
  absolute : Word.deepenRelative.present lines = false
  oids : ∀ w ∈ [Word.wants, .haves, .shallow], ∀ b ∈ w.payloads lines, (oidOf b).isSome
  refs : ∀ w ∈ [Word.wantRef, .deepenNot], ∀ b ∈ w.payloads lines, w.Writable b
  filter : ∀ b ∈ (Word.filter.payloads lines).getLast?, Word.filter.Writable b
  deepen : ∀ b ∈ (Word.deepen.payloads lines).getLast?, ∃ n < 2 ^ 32, natOf b = some n
  deepenSince : ∀ b ∈ (Word.deepenSince.payloads lines).getLast?,
    ∃ t, -2 ^ 63 ≤ t ∧ t < 2 ^ 63 ∧ intOf b = some t

end Meaning

section Words

variable {α : Type} [DecidableEq α] {sep : α} {word word' : List α}

theorem stripWord_eq_some {s rest : List α} :
    stripWord sep word s = some rest ↔ s = word ++ sep :: rest := by
  unfold stripWord
  constructor
  · intro h
    split_ifs at h with hprefix
    obtain ⟨rest', rfl⟩ := List.isPrefixOf_iff_prefix.mp hprefix
    rw [List.drop_left, Option.some.injEq] at h
    rw [h, List.append_assoc, List.singleton_append]
  · rintro rfl
    have happend : word ++ sep :: rest = word ++ [sep] ++ rest := List.append_cons _ _ _
    rw [happend, if_pos (List.isPrefixOf_iff_prefix.mpr (List.prefix_append _ _)), List.drop_left]

theorem takeWhile_word (h : sep ∉ word) (rest : List α) :
    (word ++ sep :: rest).takeWhile (· ≠ sep) = word := by
  have hall : ∀ a ∈ word, (a ≠ sep : Bool) = true := fun a ha => by
    simpa using fun heq : a = sep => h (heq ▸ ha)
  rw [List.takeWhile_append_of_pos hall]
  simp

/-- A line with a word and more is no line of another word. -/
theorem stripWord_append (h : sep ∉ word) (h' : sep ∉ word') (rest : List α) :
    stripWord sep word' (word ++ sep :: rest) = if word' = word then some rest else none := by
  split_ifs with heq
  · rw [heq]
    exact stripWord_eq_some.mpr rfl
  · cases hstrip : stripWord sep word' (word ++ sep :: rest) with
    | none => rfl
    | some rest' =>
      have hwords := takeWhile_word h rest
      rw [stripWord_eq_some.mp hstrip, takeWhile_word h'] at hwords
      exact absurd hwords heq

theorem stripWord_word (h : sep ∉ word) : stripWord sep word' word = none := by
  cases hstrip : stripWord sep word' word with
  | none => rfl
  | some rest =>
    rw [stripWord_eq_some.mp hstrip] at h
    exact absurd (List.mem_append_right _ List.mem_cons_self) h

omit [DecidableEq α] in
theorem append_ne_word (h' : sep ∉ word') (rest : List α) : word ++ sep :: rest ≠ word' := by
  rintro rfl
  exact h' (List.mem_append_right _ List.mem_cons_self)

end Words

section Lines

theorem Word.blank_not_mem (w : Word) : ' ' ∉ w.text := by
  cases w <;> simp [Word.text, Word.name]

theorem Word.ascii (w : Word) : ∀ c ∈ w.text, 32 < c.toNat ∧ c.toNat < 128 := by
  have hall : w.text.all (fun c => 32 < c.toNat && c.toNat < 128) = true := by
    cases w <;> simp [Word.text, Word.name]
  simpa only [List.all_eq_true, Bool.and_eq_true, decide_eq_true_iff] using hall

def words : List Word :=
  [.wants, .haves, .done, .thinPack, .noProgress, .includeTag, .ofsDelta, .sidebandAll,
    .waitForDone, .filter, .deepen, .deepenSince, .deepenNot, .deepenRelative, .shallow, .wantRef,
    .packfileUris, .packfileIndexes]

theorem Word.find_text (w : Word) : words.find? (fun v => v.text = w.text) = some w := by
  simp only [Word.text, String.toList_inj]
  cases w <;> simp [words, List.find?, Word.name]

theorem Word.text_inj {w w' : Word} : w.text = w'.text ↔ w = w' := by
  constructor
  · intro h
    have hfind := w.find_text
    rw [h, w'.find_text] at hfind
    exact (Option.some.inj hfind).symm
  · rintro rfl
    rfl

theorem Word.strip_values (w v : Word) (rest : List Char) :
    v.strip (w.text ++ ' ' :: rest) = if v = w then some rest else none := by
  rw [Word.strip, stripWord_append w.blank_not_mem v.blank_not_mem]
  simp only [text_inj]

theorem Word.strip_text (w v : Word) : v.strip w.text = none := stripWord_word w.blank_not_mem

theorem Word.values_ne (w v : Word) (rest : List Char) : w.text ++ ' ' :: rest ≠ v.text :=
  append_ne_word v.blank_not_mem rest

/-- A line has a word and more, or a word alone, or no word. -/
theorem line_cases (s : List Char) :
    (∃ w : Word, ∃ rest, s = w.text ++ ' ' :: rest) ∨ (∃ w : Word, s = w.text) ∨
      ∀ w : Word, w.strip s = none ∧ s ≠ w.text := by
  by_cases hvalue : ∃ w : Word, (w.strip s).isSome
  · obtain ⟨w, hw⟩ := hvalue
    obtain ⟨rest, hrest⟩ := Option.isSome_iff_exists.mp hw
    exact .inl ⟨w, rest, stripWord_eq_some.mp hrest⟩
  · by_cases hword : ∃ w : Word, s = w.text
    · exact .inr (.inl hword)
    · refine .inr (.inr fun w => ⟨?_, fun h => hword ⟨w, h⟩⟩)
      rw [← Option.not_isSome_iff_eq_none]
      exact fun h => hvalue ⟨w, h⟩

/-- What the lines with a word have behind it, as the server reads them. -/
def Word.rests (w : Word) (ss : List (List Char)) : List (List Char) := ss.filterMap w.strip

theorem Word.rests_concat (w : Word) (ss : List (List Char)) (s : List Char) :
    w.rests (ss ++ [s]) = w.rests ss ++ (w.strip s).toList := by
  rw [rests, List.filterMap_append, List.filterMap_cons, List.filterMap_nil, rests]
  cases w.strip s <;> rfl

def oids (texts : List (List Char)) : List Oid :=
  texts.filterMap fun hex => fromHex (String.ofList hex)

/-- The request that some lines make. -/
def requestOf (ss : List (List Char)) : UploadPackRequest where
  wants := oids (Word.wants.rests ss)
  haves := oids (Word.haves.rests ss)
  done := Word.done.text ∈ ss
  thinPack := Word.thinPack.text ∈ ss
  noProgress := Word.noProgress.text ∈ ss
  includeTag := Word.includeTag.text ∈ ss
  ofsDelta := Word.ofsDelta.text ∈ ss
  sidebandAll := Word.sidebandAll.text ∈ ss
  waitForDone := Word.waitForDone.text ∈ ss
  filter := (Word.filter.rests ss).getLast?.map String.ofList
  deepen := (Word.deepen.rests ss).getLast?.bind (parseUnsigned (2 ^ 32))
  deepenSince := (Word.deepenSince.rests ss).getLast?.bind fun t => Gcs.parseI64 (String.ofList t)
  deepenNot := (Word.deepenNot.rests ss).map String.ofList
  shallow := oids (Word.shallow.rests ss)
  wantRefs := (Word.wantRef.rests ss).map String.ofList
  packfileUrisProtocols :=
    ((Word.packfileUris.rests ss).getLast?.map fun p => (p.splitOn ',').map String.ofList).getD []
  packfileIndexes := Word.packfileIndexes.text ∈ ss

theorem oids_concat (texts : List (List Char)) (hex : List Char) :
    oids (texts ++ [hex]) = oids texts ++ (fromHex (String.ofList hex)).toList := by
  rw [oids, List.filterMap_append, List.filterMap_cons, List.filterMap_nil, oids]
  cases fromHex (String.ofList hex) <;> rfl

theorem takeLine_requestOf (ss : List (List Char)) (b : Bytes) :
    takeLine (requestOf ss) b = requestOf (ss ++ [trimEndNewlines (Utf8.decode b)]) := by
  rcases line_cases (trimEndNewlines (Utf8.decode b)) with ⟨w, rest, hs⟩ | ⟨w, hs⟩ | hs
  · rw [takeLine, hs]
    cases w <;> simp [requestOf, Word.rests_concat, Word.strip_values, Word.values_ne,
      (Word.values_ne _ _ _).symm, oids_concat]
  · rw [takeLine, hs]
    cases w <;> simp [requestOf, Word.rests_concat, Word.strip_text, Word.text_inj]
  · simp [takeLine, requestOf, Word.rests_concat, hs, fun w => (hs w).2.symm]

/-- A line as the server reads it. -/
def textOf (b : Bytes) : List Char := trimEndNewlines (Utf8.decode b)

theorem foldl_takeLine (bs : List Bytes) : bs.foldl takeLine {} = requestOf (bs.map textOf) := by
  induction bs using List.reverseRecOn with
  | nil => rfl
  | append_singleton bs b ih =>
    rw [List.foldl_append, ih, List.foldl_cons, List.foldl_nil, takeLine_requestOf,
      List.map_append]
    rfl

theorem parseFetchRequest_eq (r : Reader) : parseFetchRequest r =
    (readLines r).map fun p => (requestOf (p.1.map textOf), p.2) := by
  rw [parseFetchRequest, Pkt.foldSection, Framing.foldFrames_pure]
  simp only [foldl_takeLine]
  rfl

end Lines

section Bytes

theorem textOf_eq (b : Bytes) : textOf b = Utf8.decode (chomp b) :=
  (Utf8.decode_rdropWhile (c := '\n') (by decide) b).symm

theorem Word.plain (w : Word) : '\uFFFD' ∉ w.text := fun h =>
  absurd (w.ascii _ h).2 (by decide)

theorem encode_blank : Utf8.encode [' '] = [32] := by decide

theorem encode_newline : Utf8.encode ['\n'] = [10] := by decide

theorem Word.strip_decode (w : Word) (b : Bytes) :
    w.strip (Utf8.decode b) = (stripWord 32 w.bytes b).map Utf8.decode := by
  have hplain : '\uFFFD' ∉ w.text ++ [' '] := by
    rw [List.mem_append, not_or]
    exact ⟨w.plain, by decide⟩
  cases hraw : stripWord 32 w.bytes b with
  | some rest =>
    have happend : w.bytes ++ 32 :: rest = Utf8.encode (w.text ++ [' ']) ++ rest := by
      rw [Utf8.encode_append, encode_blank, List.append_assoc, List.singleton_append, bytes]
    rw [stripWord_eq_some.mp hraw, happend, Utf8.decode_append, Option.map_some]
    exact stripWord_eq_some.mpr (List.append_cons _ _ _).symm
  | none =>
    cases hstrip : w.strip (Utf8.decode b) with
    | none => rfl
    | some rest =>
      have hdecode := stripWord_eq_some.mp hstrip
      rw [List.append_cons] at hdecode
      obtain ⟨tail, rfl, -⟩ := Utf8.eq_of_decode hplain hdecode
      rw [Utf8.encode_append, encode_blank, List.append_assoc, List.singleton_append, ← bytes,
        stripWord_eq_some.mpr rfl] at hraw
      cases hraw

theorem Word.decode_eq_text (w : Word) {b : Bytes} : Utf8.decode b = w.text ↔ b = w.bytes := by
  constructor
  · intro h
    rw [← List.append_nil w.text] at h
    obtain ⟨tail, rfl, htail⟩ := Utf8.eq_of_decode w.plain h
    rw [Utf8.decode_eq_nil.mp htail, List.append_nil, bytes]
  · rintro rfl
    exact Utf8.decode_encode w.text

theorem Word.rests_textOf (w : Word) (bs : List Bytes) :
    w.rests (bs.map textOf) = (w.payloads bs).map Utf8.decode := by
  rw [rests, payloads, List.filterMap_map, List.map_filterMap, List.filterMap_map]
  refine List.filterMap_congr fun b _ => ?_
  rw [Function.comp_apply, textOf_eq, w.strip_decode]
  rfl

theorem Word.mem_textOf (w : Word) (bs : List Bytes) :
    decide (w.text ∈ bs.map textOf) = w.present bs := by
  rw [present, decide_eq_decide, List.mem_map, List.mem_map]
  simp only [textOf_eq, w.decode_eq_text]

/-- A line that was written is read as it was. -/
theorem chomp_encode (s : List Char) :
    chomp (Utf8.encode s) = Utf8.encode (trimEndNewlines s) :=
  Utf8.rdropWhile_encode (c := '\n') (by decide) s

theorem Word.strip_encode (w : Word) (s : List Char) :
    stripWord 32 w.bytes (Utf8.encode s) = (w.strip s).map Utf8.encode := by
  have hdecode := w.strip_decode (Utf8.encode s)
  rw [Utf8.decode_encode] at hdecode
  rw [hdecode]
  cases hraw : stripWord 32 w.bytes (Utf8.encode s) with
  | none => rfl
  | some rest =>
    rw [hraw] at hdecode
    have hbytes := stripWord_eq_some.mp hraw
    rw [stripWord_eq_some.mp hdecode, List.append_cons, Utf8.encode_append, Utf8.encode_append,
      encode_blank, List.append_assoc, List.singleton_append, bytes, List.append_cancel_left_eq,
      List.cons.injEq] at hbytes
    simp [hbytes.2]

theorem Word.payloads_encode (w : Word) (ls : List (List Char)) :
    w.payloads (ls.map Utf8.encode) = (w.rests (ls.map trimEndNewlines)).map Utf8.encode := by
  rw [rests, payloads, List.filterMap_map, List.filterMap_map, List.map_filterMap,
    List.filterMap_map]
  refine List.filterMap_congr fun s _ => ?_
  rw [Function.comp_apply, Function.comp_apply, chomp_encode, w.strip_encode]
  rfl

theorem Word.present_encode (w : Word) (ls : List (List Char)) :
    w.present (ls.map Utf8.encode) = decide (w.text ∈ ls.map trimEndNewlines) := by
  rw [present, decide_eq_decide, List.map_map, List.mem_map, List.mem_map]
  simp only [Function.comp_apply, chomp_encode, bytes]
  exact exists_congr fun s => and_congr_right fun _ =>
    ⟨Utf8.encode_injective, congrArg Utf8.encode⟩

end Bytes

section Values

theorem hexDigit_toLower {c : Char} (h : Text.isAsciiHexDigit c = true) :
    c.toNat < 128 ∧ Text.isAsciiHexDigit c.toLower = true ∧ c.toLower.toLower = c.toLower := by
  have hrange : c.toNat < 128 := by
    have : (48 ≤ c.toNat ∧ c.toNat ≤ 57) ∨ (97 ≤ c.toNat ∧ c.toNat ≤ 102) ∨
        (65 ≤ c.toNat ∧ c.toNat ≤ 70) := by
      simpa [Text.isAsciiHexDigit, Char.isDigit, Char.le_def, UInt32.le_iff_toNat_le, or_assoc]
        using h
    omega
  have hall : ∀ n : Fin 128, Text.isAsciiHexDigit (Char.ofNat n) = true →
      Text.isAsciiHexDigit (Char.ofNat n).toLower = true ∧
        (Char.ofNat n).toLower.toLower = (Char.ofNat n).toLower := by decide
  have := hall ⟨c.toNat, hrange⟩
  rw [Char.ofNat_toNat] at this
  exact ⟨hrange, this h⟩

/-- An object id is read as itself. -/
theorem fromHex_idem {hex : String} {oid : Oid} (h : fromHex hex = some oid) :
    fromHex oid = some oid ∧ (∀ c ∈ oid.toList, Text.isAsciiHexDigit c = true) ∧
      oid.utf8ByteSize ≤ 64 := by
  unfold fromHex at h
  split_ifs at h with hvalid
  rw [Bool.and_eq_true, List.all_eq_true] at hvalid
  obtain ⟨hsize, hhex⟩ := hvalid
  obtain rfl := Option.some.inj h
  have hlower : ∀ c ∈ (Text.toAsciiLowercase hex).toList, Text.isAsciiHexDigit c = true := by
    intro c hc
    rw [Text.toAsciiLowercase, String.toList_ofList, List.mem_map] at hc
    obtain ⟨d, hd, rfl⟩ := hc
    exact (hexDigit_toLower (hhex d hd)).2.1
  have hlength : (Text.toAsciiLowercase hex).utf8ByteSize = hex.utf8ByteSize := by
    have hhexSize := Utf8.utf8ByteSize_ofList hex.toList
    rw [String.ofList_toList] at hhexSize
    rw [hhexSize, Text.toAsciiLowercase, Utf8.utf8ByteSize_ofList,
      Utf8.length_encode_ascii fun c hc => (hexDigit_toLower (hhex c hc)).1,
      Utf8.length_encode_ascii, List.length_map]
    intro c hc
    obtain ⟨d, hd, rfl⟩ := List.mem_map.mp hc
    exact (hexDigit_toLower (hexDigit_toLower (hhex d hd)).2.1).1
  refine ⟨?_, hlower, ?_⟩
  · rw [fromHex, hlength, if_pos, Text.toAsciiLowercase_idem]
    rw [Bool.and_eq_true, List.all_eq_true]
    exact ⟨hsize, hlower⟩
  · rw [hlength]
    have : hex.utf8ByteSize = 40 ∨ hex.utf8ByteSize = 64 := by simpa using hsize
    omega

theorem numeral_toDigits (n : ℕ) : numeral (Nat.toDigits 10 n) = some n := by
  have hsome : (Nat.toDigits 10 n).isEmpty = false := by simp [Nat.toDigits_ne_nil]
  have hall : (Nat.toDigits 10 n).all Char.isDigit = true := List.all_eq_true.mpr fun c hc =>
    Nat.isDigit_of_mem_toDigits (by decide) (by decide) hc
  have hvalue := Nat.ofDigitChars_ten_toDigits (n := n)
  rw [Nat.ofDigitChars_eq_foldl] at hvalue
  rw [numeral, hsome, hall]
  exact congrArg some hvalue

theorem numeral_sign {c : Char} (hc : c.isDigit = false) (digits : List Char) :
    numeral (c :: digits) = none := by
  simp [numeral, hc]

theorem natOf_toDigits (n : ℕ) : natOf (Utf8.encode (Nat.toDigits 10 n)) = some n := by
  have hnumeral := numeral_toDigits n
  rw [natOf, Utf8.decode_encode, unsigned.eq_def]
  split
  · rename_i digits heq
    rw [heq, numeral_sign (by decide)] at hnumeral
    cases hnumeral
  · exact hnumeral

theorem intOf_decimal (t : ℤ) : intOf (Utf8.encode (decimal t)) = some t := by
  rw [intOf, Utf8.decode_encode]
  cases t with
  | ofNat n =>
    have hnumeral := numeral_toDigits n
    rw [decimal, signed.eq_def]
    split
    · rename_i digits heq
      rw [heq, numeral_sign (by decide)] at hnumeral
      cases hnumeral
    · rename_i digits heq
      rw [heq, numeral_sign (by decide)] at hnumeral
      cases hnumeral
    · rw [hnumeral]
      rfl
  | negSucc n =>
    rw [decimal, signed, numeral_toDigits]
    rfl

theorem unsigned_plain {s : List Char} (h : ∀ digits, s ≠ '+' :: digits) :
    unsigned s = numeral s := by
  unfold unsigned
  split
  · exact absurd rfl (h _)
  · rfl

theorem signed_plain {s : List Char} (hminus : ∀ digits, s ≠ '-' :: digits)
    (hplus : ∀ digits, s ≠ '+' :: digits) :
    signed s = (numeral s).map fun n : ℕ => (n : ℤ) := by
  unfold signed
  split
  · exact absurd rfl (hminus _)
  · exact absurd rfl (hplus _)
  · rfl

theorem parseUnsigned_eq (bound : ℕ) (s : List Char) :
    parseUnsigned bound s = (unsigned s).filter (· < bound) := by
  have hnumeral : ∀ digits : List Char, (if digits.isEmpty || !digits.all Char.isDigit then none
      else if digits.foldl (fun n c => 10 * n + (c.toNat - 48)) 0 < bound then
        some (digits.foldl (fun n c => 10 * n + (c.toNat - 48)) 0) else none) =
      (numeral digits).filter (· < bound) := by
    intro digits
    rw [numeral]
    by_cases hbad : (digits.isEmpty || !digits.all Char.isDigit) = true
    · rw [if_pos hbad, if_pos hbad]
      rfl
    · rw [if_neg hbad, if_neg hbad]
      simp [Option.filter]
  rw [parseUnsigned]
  split
  · rename_i hplus
    obtain ⟨digits, rfl⟩ := List.head?_eq_some_iff.mp hplus
    exact hnumeral digits
  · rename_i hplus
    rw [unsigned_plain fun digits hs => hplus (by rw [hs, List.head?_cons])]
    exact hnumeral s

/-- A number of 64 bits with a sign. -/
def inRange (t : ℤ) : Bool := -2 ^ 63 ≤ t && t < 2 ^ 63

theorem foldl_cast {digits : List Char} (h : ∀ c ∈ digits, c.isDigit = true) (n : ℕ) :
    digits.foldl (fun (n : ℤ) c => 10 * n + (c.toNat - '0'.toNat)) n =
      (digits.foldl (fun (n : ℕ) c => 10 * n + (c.toNat - 48)) n : ℕ) := by
  induction digits generalizing n with
  | nil => rfl
  | cons c digits ih =>
    rw [List.forall_mem_cons] at h
    have hc : 48 ≤ c.toNat := by
      have := h.1
      rw [Char.isDigit, Bool.and_eq_true, decide_eq_true_eq] at this
      exact this.1
    rw [List.foldl_cons, List.foldl_cons, ← ih h.2]
    congr 1
    rw [Nat.cast_add, Nat.cast_mul, Nat.cast_sub hc]
    rfl

theorem parseI64_eq (s : List Char) :
    Gcs.parseI64 (String.ofList s) = (signed s).filter inRange := by
  have hnumeral : ∀ (negative : Bool) (digits : List Char),
      (if digits.isEmpty || !digits.all Char.isDigit then none
      else
        let n : ℤ := digits.foldl (fun n c => 10 * n + (c.toNat - '0'.toNat)) (0 : ℕ)
        let n := if negative then -n else n
        if -2 ^ 63 ≤ n && n < 2 ^ 63 then some n else none) =
      ((numeral digits).map fun n : ℕ => if negative then -(n : ℤ) else n).filter inRange := by
    intro negative digits
    rw [numeral]
    by_cases hbad : (digits.isEmpty || !digits.all Char.isDigit) = true
    · rw [if_pos hbad, if_pos hbad]
      rfl
    · have hall : ∀ c ∈ digits, c.isDigit = true := by
        rw [Bool.or_eq_true, not_or, Bool.not_eq_true', Bool.not_eq_false, List.all_eq_true] at hbad
        exact hbad.2
      rw [if_neg hbad, if_neg hbad]
      simp only [Option.map_some, Option.filter, inRange, foldl_cast hall]
      rfl
  rw [Gcs.parseI64, String.toList_ofList]
  split
  rename_i negative digits hsign
  split at hsign
  · cases hsign
    exact hnumeral true _
  · cases hsign
    exact hnumeral false _
  · rename_i hminus hplus
    cases hsign
    rw [signed_plain hminus hplus]
    exact hnumeral false s

end Values

section Sent

/-- What the written lines of a word have behind it. -/
def Word.valuesOf (req : UploadPackRequest) : Word → List (List Char)
  | .filter => req.filter.toList.map String.toList
  | .wants => req.wants.map String.toList
  | .haves => req.haves.map String.toList
  | .shallow => req.shallow.map String.toList
  | .deepen => req.deepen.toList.map (Nat.toDigits 10)
  | .deepenSince => req.deepenSince.toList.map decimal
  | .deepenNot => req.deepenNot.map String.toList
  | .wantRef => req.wantRefs.map String.toList
  | _ => []

def Word.flagOf (req : UploadPackRequest) : Word → Bool
  | .thinPack => req.thinPack
  | .ofsDelta => req.ofsDelta
  | .noProgress => req.noProgress
  | .includeTag => req.includeTag
  | .sidebandAll => req.sidebandAll
  | .waitForDone => req.waitForDone
  | .done => req.done
  | _ => false

/-- No value ends its line, and no URIs are left. -/
structure Tidy (req : UploadPackRequest) : Prop where
  values : ∀ w : Word, ∀ value ∈ w.valuesOf req, value.getLast? ≠ some '\n'
  uris : req.packfileUrisProtocols = []

theorem trim_newline {s : List Char} (h : s.getLast? ≠ some '\n') :
    trimEndNewlines (s ++ ['\n']) = s := by
  change (s ++ ['\n']).rdropWhile (· = '\n') = s
  rw [List.rdropWhile_concat_pos _ _ _ (by simp), List.rdropWhile_eq_self_iff]
  intro hl hlast
  exact h ((List.getLast?_eq_some_getLast hl).trans (congrArg some (of_decide_eq_true hlast)))

theorem Word.getLast?_text (w : Word) : w.text.getLast? ≠ some '\n' := fun h =>
  absurd (w.ascii _ (List.mem_of_getLast? h)).1 (by decide)

theorem trim_value (w : Word) {value : List Char} (h : value.getLast? ≠ some '\n') :
    trimEndNewlines (w.text ++ ' ' :: value ++ ['\n']) = w.text ++ ' ' :: value := by
  refine trim_newline ?_
  rw [List.getLast?_append_of_ne_nil _ (List.cons_ne_nil _ _)]
  cases value with
  | nil => exact fun hblank => absurd (Option.some.inj hblank) (by decide)
  | cons c value => rwa [List.getLast?_cons_cons]

theorem map_trim_values (w : Word) {values : List (List Char)}
    (h : ∀ value ∈ values, value.getLast? ≠ some '\n') :
    (w.values values).map trimEndNewlines = values.map fun value => w.text ++ ' ' :: value := by
  rw [Word.values, List.map_map]
  exact List.map_congr_left fun value hvalue => trim_value w (h value hvalue)

theorem Word.rests_values (w v : Word) {values : List (List Char)}
    (h : ∀ value ∈ values, value.getLast? ≠ some '\n') :
    w.rests ((v.values values).map trimEndNewlines) = if w = v then values else [] := by
  rw [map_trim_values v h, rests, List.filterMap_map]
  simp only [Function.comp_def, v.strip_values]
  split_ifs <;> simp

theorem Word.not_mem_values (w v : Word) {values : List (List Char)}
    (h : ∀ value ∈ values, value.getLast? ≠ some '\n') :
    w.text ∉ (v.values values).map trimEndNewlines := by
  rw [map_trim_values v h, List.mem_map]
  rintro ⟨value, -, heq⟩
  exact v.values_ne w value heq

theorem map_trim_flag (w : Word) (set : Bool) :
    (w.flag set).map trimEndNewlines = if set then [w.text] else [] := by
  cases set
  · rfl
  · exact congrArg (· :: []) (trim_newline w.getLast?_text)

theorem Word.rests_flag (w v : Word) (set : Bool) :
    w.rests ((v.flag set).map trimEndNewlines) = [] := by
  rw [map_trim_flag]
  cases set
  · rfl
  · rw [if_pos rfl, rests, List.filterMap_cons, v.strip_text, List.filterMap_nil]

theorem Word.mem_flag (w v : Word) (set : Bool) :
    w.text ∈ (v.flag set).map trimEndNewlines ↔ w = v ∧ set = true := by
  rw [map_trim_flag]
  cases set <;> simp [text_inj]

theorem Word.rests_append (w : Word) (ss ts : List (List Char)) :
    w.rests (ss ++ ts) = w.rests ss ++ w.rests ts := List.filterMap_append

/-- What is written for a word is read as its values, and a flag is written if it is set. -/
theorem Tidy.read_arguments {req : UploadPackRequest} (h : Tidy req) (w : Word) :
    w.rests ((arguments req).map trimEndNewlines) = w.valuesOf req ∧
      (w.text ∈ (arguments req).map trimEndNewlines ↔ w.flagOf req = true) := by
  have hfilter := h.values .filter
  have hwants := h.values .wants
  have hhaves := h.values .haves
  have hshallow := h.values .shallow
  have hdeepen := h.values .deepen
  have hsince := h.values .deepenSince
  have hnot := h.values .deepenNot
  have hrefs := h.values .wantRef
  simp only [Word.valuesOf] at hfilter hwants hhaves hshallow hdeepen hsince hnot hrefs
  simp only [arguments, h.uris, List.isEmpty_nil, if_true, List.append_nil, List.map_append]
  constructor
  · simp only [w.rests_append, w.rests_flag, List.nil_append, w.rests_values _ hfilter,
      w.rests_values _ hwants, w.rests_values _ hhaves, w.rests_values _ hshallow,
      w.rests_values _ hdeepen, w.rests_values _ hsince, w.rests_values _ hnot,
      w.rests_values _ hrefs]
    cases w <;> simp [Word.valuesOf]
  · simp only [List.mem_append, w.mem_flag, w.not_mem_values _ hfilter,
      w.not_mem_values _ hwants, w.not_mem_values _ hhaves, w.not_mem_values _ hshallow,
      w.not_mem_values _ hdeepen, w.not_mem_values _ hsince, w.not_mem_values _ hnot,
      w.not_mem_values _ hrefs]
    cases w <;> simp [Word.flagOf]

end Sent

section Rebuilt

variable (bs : List Bytes)

/-- The request that is written for the lines of a client. -/
def rebuilt : UploadPackRequest := (requestOf (bs.map textOf)).clearUris

theorem oids_rests (w : Word) :
    oids (w.rests (bs.map textOf)) = (w.payloads bs).filterMap oidOf := by
  rw [w.rests_textOf, oids, List.filterMap_map]
  rfl

theorem getLast?_rests (w : Word) :
    (w.rests (bs.map textOf)).getLast? = (w.payloads bs).getLast?.map Utf8.decode := by
  rw [w.rests_textOf, List.getLast?_map]

theorem rebuilt_deepen : (rebuilt bs).deepen =
    (Word.deepen.payloads bs).getLast?.bind fun b => (natOf b).filter (· < 2 ^ 32) := by
  change (Word.deepen.rests (bs.map textOf)).getLast?.bind _ = _
  rw [getLast?_rests, Option.bind_map]
  exact Option.bind_congr fun b _ => parseUnsigned_eq (2 ^ 32) _

theorem rebuilt_deepenSince : (rebuilt bs).deepenSince =
    (Word.deepenSince.payloads bs).getLast?.bind fun b => (intOf b).filter inRange := by
  change (Word.deepenSince.rests (bs.map textOf)).getLast?.bind _ = _
  rw [getLast?_rests, Option.bind_map]
  exact Option.bind_congr fun b _ => parseI64_eq _

/-- What was read behind a word does not end in a newline. -/
theorem getLast?_of_mem_rests {w : Word} {rest : List Char} (h : rest ∈ w.rests (bs.map textOf)) :
    rest.getLast? ≠ some '\n' := by
  obtain ⟨s, hs, hstrip⟩ := List.mem_filterMap.mp h
  obtain ⟨b, -, rfl⟩ := List.mem_map.mp hs
  intro hlast
  have hne : rest ≠ [] := fun hnil => by
    rw [hnil] at hlast
    cases hlast
  have htext : (textOf b).getLast? = some '\n' := by
    rw [stripWord_eq_some.mp hstrip, List.getLast?_append_of_ne_nil _ (List.cons_ne_nil _ _),
      List.getLast?_cons_of_ne_nil hne, hlast]
  have htrim : textOf b ≠ [] := fun hnil => by
    rw [hnil] at htext
    cases htext
  have := List.rdropWhile_last_not (· = '\n') (Utf8.decode b) htrim
  rw [List.getLast?_eq_some_getLast htrim] at htext
  exact this (decide_eq_true (Option.some.inj htext))

theorem getLast?_of_digits {digits : List Char} (h : ∀ c ∈ digits, c ≠ '\n') :
    digits.getLast? ≠ some '\n' := fun hlast => h _ (List.mem_of_getLast? hlast) rfl

theorem getLast?_toDigits (n : ℕ) : (Nat.toDigits 10 n).getLast? ≠ some '\n' :=
  getLast?_of_digits fun c hc heq => by
    have := Nat.isDigit_of_mem_toDigits (by decide) (by decide) hc
    rw [heq] at this
    exact absurd this (by decide)

theorem getLast?_decimal (t : ℤ) : (decimal t).getLast? ≠ some '\n' := by
  cases t with
  | ofNat n => exact getLast?_toDigits n
  | negSucc n =>
    rw [decimal, List.getLast?_cons_of_ne_nil Nat.toDigits_ne_nil]
    exact getLast?_toDigits (n + 1)

theorem getLast?_oid {oid : Oid} (h : fromHex oid = some oid) :
    oid.toList.getLast? ≠ some '\n' :=
  getLast?_of_digits fun c hc heq => by
    have := (fromHex_idem h).2.1 c hc
    rw [heq] at this
    exact absurd this (by decide)

theorem fromHex_of_mem_oids {texts : List (List Char)} {oid : Oid} (h : oid ∈ oids texts) :
    fromHex oid = some oid := by
  obtain ⟨hex, -, hhex⟩ := List.mem_filterMap.mp h
  exact (fromHex_idem hhex).1

theorem tidy_rebuilt : Tidy (rebuilt bs) where
  uris := rfl
  values := by
    have hoids : ∀ texts, ∀ value ∈ (oids texts).map String.toList,
        value.getLast? ≠ some '\n' := by
      intro texts value hvalue
      obtain ⟨oid, hoid, rfl⟩ := List.mem_map.mp hvalue
      exact getLast?_oid (fromHex_of_mem_oids hoid)
    have htexts : ∀ w : Word, ∀ value ∈ ((w.rests (bs.map textOf)).map String.ofList).map
        String.toList, value.getLast? ≠ some '\n' := by
      intro w value hvalue
      simp only [List.map_map, List.mem_map, Function.comp_apply, String.toList_ofList] at hvalue
      obtain ⟨rest, hrest, rfl⟩ := hvalue
      exact getLast?_of_mem_rests bs hrest
    intro w value hvalue
    cases w with
    | wants | haves | shallow => exact hoids _ value hvalue
    | wantRef | deepenNot => exact htexts _ value hvalue
    | filter =>
      change value ∈ ((Word.filter.rests (bs.map textOf)).getLast?.map
        String.ofList).toList.map String.toList at hvalue
      simp only [List.mem_map, Option.mem_toList, Option.map_eq_some_iff] at hvalue
      obtain ⟨_, ⟨rest, hrest, rfl⟩, rfl⟩ := hvalue
      rw [String.toList_ofList]
      exact getLast?_of_mem_rests bs (List.mem_of_getLast? hrest)
    | deepen =>
      obtain ⟨n, -, rfl⟩ := List.mem_map.mp hvalue
      exact getLast?_toDigits n
    | deepenSince =>
      obtain ⟨t, -, rfl⟩ := List.mem_map.mp hvalue
      exact getLast?_decimal t
    | _ => cases hvalue

/-- What the rebuilt lines have behind a word. -/
theorem payloads_rebuilt (w : Word) :
    w.payloads ((arguments (rebuilt bs)).map Utf8.encode) =
      (w.valuesOf (rebuilt bs)).map Utf8.encode := by
  rw [w.payloads_encode, ((tidy_rebuilt bs).read_arguments w).1]

theorem present_rebuilt (w : Word) :
    w.present ((arguments (rebuilt bs)).map Utf8.encode) = w.flagOf (rebuilt bs) := by
  rw [w.present_encode, Bool.eq_iff_iff, decide_eq_true_iff, ((tidy_rebuilt bs).read_arguments w).2]

theorem map_oidOf_oids (texts : List (List Char)) :
    (((oids texts).map String.toList).map Utf8.encode).map oidOf = (oids texts).map some := by
  rw [List.map_map, List.map_map]
  refine List.map_congr_left fun oid hoid => ?_
  rw [Function.comp_apply, Function.comp_apply, oidOf, Utf8.decode_encode, String.ofList_toList,
    fromHex_of_mem_oids hoid]

end Rebuilt

section Same

theorem map_some_filterMap {α β : Type} {f : α → Option β} {l : List α} :
    (l.filterMap f).map some = l.map f ↔ ∀ a ∈ l, (f a).isSome := by
  constructor
  · intro h a ha
    have hmem : f a ∈ (l.filterMap f).map some := h ▸ List.mem_map_of_mem ha
    obtain ⟨b, -, hb⟩ := List.mem_map.mp hmem
    rw [← hb]
    rfl
  · intro h
    induction l with
    | nil => rfl
    | cons a l ih =>
      rw [List.forall_mem_cons] at h
      obtain ⟨b, hb⟩ := Option.isSome_iff_exists.mp h.1
      rw [List.filterMap_cons_some hb, List.map_cons, List.map_cons, ih h.2, hb]

theorem map_some_bind_filter {α β : Type} {f : α → Option β} {p : β → Bool} {o : Option α} :
    (o.bind fun a => (f a).filter p).map some = o.map f ↔
      ∀ a ∈ o, ∃ b, p b = true ∧ f a = some b := by
  cases o with
  | none => simp
  | some a =>
    cases hf : f a with
    | none => simp [hf]
    | some b => by_cases hp : p b = true <;> simp [hf, hp, Option.filter]

theorem encode_decode_eq {b : Bytes} :
    Utf8.encode (Utf8.decode b) = b ↔ ∃ text, b = Utf8.encode text := by
  constructor
  · exact fun h => ⟨_, h.symm⟩
  · rintro ⟨text, rfl⟩
    rw [Utf8.decode_encode]

variable (bs : List Bytes)

/-- The conditions that are not about lengths. -/
def Plain : Prop :=
  Word.deepenRelative.present bs = false ∧
  (∀ w ∈ [Word.wants, .haves, .shallow], ∀ b ∈ w.payloads bs, (oidOf b).isSome) ∧
  (∀ w ∈ [Word.wantRef, .deepenNot], ∀ b ∈ w.payloads bs, ∃ text, b = Utf8.encode text) ∧
  (∀ b ∈ (Word.filter.payloads bs).getLast?, ∃ text, b = Utf8.encode text) ∧
  (∀ b ∈ (Word.deepen.payloads bs).getLast?, ∃ n < 2 ^ 32, natOf b = some n) ∧
  ∀ b ∈ (Word.deepenSince.payloads bs).getLast?, ∃ t, -2 ^ 63 ≤ t ∧ t < 2 ^ 63 ∧ intOf b = some t

theorem oids_same (w : Word) :
    (((oids (w.rests (bs.map textOf))).map String.toList).map Utf8.encode).map oidOf =
      (w.payloads bs).map oidOf ↔ ∀ b ∈ w.payloads bs, (oidOf b).isSome := by
  rw [map_oidOf_oids, oids_rests]
  exact map_some_filterMap

theorem texts_same (w : Word) :
    (((w.rests (bs.map textOf)).map String.ofList).map String.toList).map Utf8.encode =
      w.payloads bs ↔ ∀ b ∈ w.payloads bs, ∃ text, b = Utf8.encode text := by
  have hid : w.payloads bs = (w.payloads bs).map id := (List.map_id _).symm
  conv_lhs => rw [w.rests_textOf, List.map_map, List.map_map, List.map_map]; rhs; rw [hid]
  rw [List.map_inj_left]
  refine forall₂_congr fun b _ => ?_
  simp only [Function.comp_apply, String.toList_ofList, id_eq]
  exact encode_decode_eq

theorem filter_same :
    ((Word.filter.valuesOf (rebuilt bs)).map Utf8.encode).getLast? =
      (Word.filter.payloads bs).getLast? ↔
        ∀ b ∈ (Word.filter.payloads bs).getLast?, ∃ text, b = Utf8.encode text := by
  change (((((Word.filter.rests (bs.map textOf)).getLast?.map String.ofList).toList.map
    String.toList).map Utf8.encode).getLast? = _) ↔ _
  rw [getLast?_rests]
  cases (Word.filter.payloads bs).getLast? with
  | none => simp
  | some b => simpa using encode_decode_eq

theorem deepen_same :
    (((Word.deepen.valuesOf (rebuilt bs)).map Utf8.encode).getLast?.map natOf =
      (Word.deepen.payloads bs).getLast?.map natOf) ↔
        ∀ b ∈ (Word.deepen.payloads bs).getLast?, ∃ n < 2 ^ 32, natOf b = some n := by
  have hsent : ((Word.deepen.valuesOf (rebuilt bs)).map Utf8.encode).getLast?.map natOf =
      (rebuilt bs).deepen.map some := by
    rw [Word.valuesOf]
    cases (rebuilt bs).deepen with
    | none => rfl
    | some n => exact congrArg some (natOf_toDigits n)
  rw [hsent, rebuilt_deepen, map_some_bind_filter]
  simp only [decide_eq_true_iff]

theorem deepenSince_same :
    (((Word.deepenSince.valuesOf (rebuilt bs)).map Utf8.encode).getLast?.map intOf =
      (Word.deepenSince.payloads bs).getLast?.map intOf) ↔
        ∀ b ∈ (Word.deepenSince.payloads bs).getLast?,
          ∃ t, -2 ^ 63 ≤ t ∧ t < 2 ^ 63 ∧ intOf b = some t := by
  have hsent : ((Word.deepenSince.valuesOf (rebuilt bs)).map Utf8.encode).getLast?.map intOf =
      (rebuilt bs).deepenSince.map some := by
    rw [Word.valuesOf]
    cases (rebuilt bs).deepenSince with
    | none => rfl
    | some t => exact congrArg some (intOf_decimal t)
  rw [hsent, rebuilt_deepenSince, map_some_bind_filter]
  simp only [inRange, Bool.and_eq_true, decide_eq_true_iff, and_assoc]

/-- When the rebuilt lines ask for the same. -/
theorem meaning_rebuilt :
    meaning ((arguments (rebuilt bs)).map Utf8.encode) = meaning bs ↔ Plain bs := by
  have hflags : ∀ w ∈ [Word.done, .thinPack, .noProgress, .includeTag, .ofsDelta, .sidebandAll,
      .waitForDone], w.flagOf (rebuilt bs) = w.present bs := by
    simp only [List.forall_mem_cons, List.not_mem_nil, false_implies, implies_true, and_true,
      ← Word.mem_textOf]
    exact ⟨rfl, rfl, rfl, rfl, rfl, rfl, rfl⟩
  simp only [List.forall_mem_cons, List.not_mem_nil, false_implies, implies_true, and_true]
    at hflags
  obtain ⟨hdone, hthin, hprogress, htag, hofs, hsideband, hwait⟩ := hflags
  rw [Meaning.ext_iff]
  simp only [meaning, payloads_rebuilt, present_rebuilt, hdone, hthin, hprogress, htag, hofs,
    hsideband, hwait, true_and, filter_same, deepen_same, deepenSince_same]
  refine (and_congr (oids_same bs .wants) (and_congr (oids_same bs .haves)
    (and_congr (oids_same bs .shallow) (and_congr (texts_same bs .wantRef) (and_congr_right
      fun _ => and_congr_right fun _ => and_congr_right fun _ =>
        and_congr_left fun _ => texts_same bs .deepenNot))))).trans ?_
  rw [Plain]
  simp only [List.forall_mem_cons, List.not_mem_nil, false_implies, implies_true, and_true]
  constructor
  · rintro ⟨hwants, hhaves, hshallow, hrefs, hfilter, hdeepen, hsince, hnot, hrelative⟩
    exact ⟨hrelative.symm, ⟨hwants, hhaves, hshallow⟩, ⟨hrefs, hnot⟩, hfilter, hdeepen, hsince⟩
  · rintro ⟨hrelative, ⟨hwants, hhaves, hshallow⟩, ⟨hrefs, hnot⟩, hfilter, hdeepen, hsince⟩
    exact ⟨hwants, hhaves, hshallow, hrefs, hfilter, hdeepen, hsince, hnot, hrelative.symm⟩

end Same

section Lengths

theorem Word.length_bytes (w : Word) : w.bytes.length ≤ 17 := by
  cases w <;> decide

theorem length_value (w : Word) (value : List Char) :
    (Utf8.encode (w.text ++ ' ' :: value ++ ['\n'])).length =
      w.bytes.length + (Utf8.encode value).length + 2 := by
  have hblank : (Utf8.encode [' ']).length = 1 := congrArg List.length encode_blank
  have hnewline : (Utf8.encode ['\n']).length = 1 := congrArg List.length encode_newline
  have hsplit : w.text ++ ' ' :: value ++ ['\n'] = w.text ++ ([' '] ++ (value ++ ['\n'])) := by simp
  rw [hsplit, Utf8.encode_append, Utf8.encode_append, Utf8.encode_append,
    List.length_append, List.length_append, List.length_append, hblank, hnewline, Word.bytes]
  omega

theorem length_flag {w : Word} {set : Bool} {line : List Char} (h : line ∈ w.flag set) :
    (Utf8.encode line).length ≤ 18 := by
  have hnewline : (Utf8.encode ['\n']).length = 1 := congrArg List.length encode_newline
  cases set with
  | false => cases h
  | true =>
    rw [List.mem_singleton.mp h, Utf8.encode_append, List.length_append, hnewline]
    have := w.length_bytes
    rw [Word.bytes] at this
    omega

/-- A line that is written has a word alone, or a value behind its word. -/
theorem mem_arguments_cases {req : UploadPackRequest} (huris : req.packfileUrisProtocols = [])
    {line : List Char} (h : line ∈ arguments req) :
    (Utf8.encode line).length ≤ 18 ∨
      ∃ w : Word, ∃ value ∈ w.valuesOf req, line = w.text ++ ' ' :: value ++ ['\n'] := by
  have hvalue : ∀ w : Word, line ∈ w.values (w.valuesOf req) →
      ∃ w : Word, ∃ value ∈ w.valuesOf req, line = w.text ++ ' ' :: value ++ ['\n'] := by
    intro w hline
    obtain ⟨value, hvalue, rfl⟩ := List.mem_map.mp hline
    exact ⟨w, value, hvalue, rfl⟩
  simp only [arguments, huris, List.isEmpty_nil, if_true, List.append_nil, List.mem_append,
    or_assoc] at h
  rcases h with h | h | h | h | h | h | h | h | h | h | h | h | h | h | h
  · exact .inl (length_flag h)
  · exact .inl (length_flag h)
  · exact .inl (length_flag h)
  · exact .inl (length_flag h)
  · exact .inl (length_flag h)
  · exact .inl (length_flag h)
  · exact .inr (hvalue .filter h)
  · exact .inr (hvalue .wants h)
  · exact .inr (hvalue .haves h)
  · exact .inr (hvalue .shallow h)
  · exact .inr (hvalue .deepen h)
  · exact .inr (hvalue .deepenSince h)
  · exact .inr (hvalue .deepenNot h)
  · exact .inr (hvalue .wantRef h)
  · exact .inl (length_flag h)

theorem value_mem_arguments {req : UploadPackRequest} {w : Word} {value : List Char}
    (h : value ∈ w.valuesOf req) : w.text ++ ' ' :: value ++ ['\n'] ∈ arguments req := by
  have hline : w.text ++ ' ' :: value ++ ['\n'] ∈ w.values (w.valuesOf req) :=
    List.mem_map.mpr ⟨value, h, rfl⟩
  simp only [arguments, List.mem_append]
  cases w with
  | filter | wants | haves | shallow | deepen | deepenSince | deepenNot | wantRef =>
    simp only [Word.valuesOf] at hline
    simp only [hline, true_or, or_true]
  | _ => cases h

theorem length_toDigits {n k : ℕ} (hk : 0 < k) (h : n < 10 ^ k) :
    (Utf8.encode (Nat.toDigits 10 n)).length ≤ k := by
  rw [Utf8.length_encode_ascii]
  · exact (Nat.length_toDigits_le_iff (by decide) hk).mpr h
  · intro c hc
    have hdigit := Nat.isDigit_of_mem_toDigits (by decide) (by decide) hc
    rw [Char.isDigit, Bool.and_eq_true, decide_eq_true_eq, decide_eq_true_eq] at hdigit
    exact Nat.lt_of_le_of_lt hdigit.2 (by decide)

theorem length_decimal {t : ℤ} (h : inRange t = true) :
    (Utf8.encode (decimal t)).length ≤ 21 := by
  rw [inRange, Bool.and_eq_true, decide_eq_true_eq, decide_eq_true_eq] at h
  cases t with
  | ofNat n =>
    have hn : n < 10 ^ 20 := by
      have : (n : ℤ) < 2 ^ 63 := h.2
      omega
    exact Nat.le_succ_of_le (length_toDigits (by decide) hn)
  | negSucc n =>
    have hn : n + 1 < 10 ^ 20 := by
      have := h.1
      omega
    have hminus : (Utf8.encode ['-']).length = 1 := by decide
    have := length_toDigits (by decide) hn
    rw [decimal, ← List.singleton_append, Utf8.encode_append, List.length_append, hminus]
    omega

theorem length_oid {oid : Oid} (h : fromHex oid = some oid) :
    (Utf8.encode oid.toList).length ≤ 64 := by
  rw [← Utf8.utf8ByteSize_ofList, String.ofList_toList]
  exact (fromHex_idem h).2.2

end Lengths

section Carried

/-- The backend reads what was written as long as each line fits in a packet. -/
theorem readRequest_eq {req : UploadPackRequest} :
    readRequest (buildV2FetchRequest req) =
        .ok ((preamble req).map bytes, (arguments req).map Utf8.encode) ↔
      ∀ line ∈ arguments req, (Line.data (Utf8.encode line)).Fits := by
  constructor
  · intro h line hline
    unfold readRequest at h
    cases hhead : readLines [buildV2FetchRequest req] with
    | error e =>
      rw [hhead] at h
      cases h
    | ok p =>
      obtain ⟨head, r⟩ := p
      rw [hhead] at h
      cases hlines : readLines r with
      | error e =>
        simp [hlines, bind, Except.bind] at h
      | ok p =>
        obtain ⟨lines, r'⟩ := p
        simp only [hlines, bind, Except.bind, pure, Except.pure, Except.ok.injEq,
          Prod.mk.injEq] at h
        have hall := Framing.forall_mem_readFrames (P := fun b => (Line.data b).Fits)
          (fun _ _ _ => Pkt.readData_fits) hlines
        rw [h.2] at hall
        exact hall _ (List.mem_map_of_mem hline)
  · intro hfits
    have hhead : ∀ b ∈ (preamble req).map bytes, (Line.data b).Fits := by
      intro b hb
      obtain ⟨line, hline, rfl⟩ := List.mem_map.mp hb
      unfold preamble at hline
      split_ifs at hline
      · simp only [List.mem_cons, List.not_mem_nil, or_false] at hline
        rcases hline with rfl | rfl <;> decide
      · rw [List.mem_singleton.mp hline]
        decide
    have hlines : ∀ b ∈ (arguments req).map Utf8.encode, (Line.data b).Fits := by
      intro b hb
      obtain ⟨line, hline, rfl⟩ := List.mem_map.mp hb
      exact hfits line hline
    have hframes : ∀ {bs : List Bytes}, (∀ b ∈ bs, (Line.data b).Fits) →
        bs.flatMap Pkt.encodeData = bs.flatMap Pkt.dataFrame := fun h =>
      List.flatMap_congr fun b hb => Pkt.encodeData_fits (h b hb)
    have hbuilt : [buildV2FetchRequest req].flatten =
        ((preamble req).map bytes).flatMap Pkt.dataFrame ++ (Pkt.encode .delim ++
          (((arguments req).map Utf8.encode).flatMap Pkt.dataFrame ++
            (Pkt.encode .flush ++ []))) := by
      rw [List.flatten_singleton, buildV2FetchRequest, ← hframes hhead, ← hframes hlines,
        List.flatMap_map, List.flatMap_map]
      simp only [List.append_assoc, List.append_nil]
    obtain ⟨r, hr, hfirst⟩ := Pkt.foldSection_stops (fun lines b => .ok (lines ++ [b])) hhead
      Pkt.stops_delim hbuilt []
    obtain ⟨r', -, hrest⟩ := Pkt.foldSection_flush (fun lines b => .ok (lines ++ [b])) hlines hr []
    rw [Framing.foldlM_collect, List.nil_append] at hfirst hrest
    simp [readRequest, readLines, hfirst, hrest, Except.map, bind, Except.bind, pure, Except.pure]

theorem rebuilt_texts (bs : List Bytes) {w : Word} (hw : w ∈ [Word.wantRef, .deepenNot]) :
    w.valuesOf (rebuilt bs) = (w.payloads bs).map Utf8.decode := by
  simp only [List.mem_cons, List.not_mem_nil, or_false] at hw
  have hrests : ((w.rests (bs.map textOf)).map String.ofList).map String.toList =
      (w.payloads bs).map Utf8.decode := by
    rw [List.map_map, w.rests_textOf, List.map_map]
    exact List.map_congr_left fun b _ => String.toList_ofList
  rcases hw with rfl | rfl <;> exact hrests

theorem rebuilt_filter (bs : List Bytes) : Word.filter.valuesOf (rebuilt bs) =
    (Word.filter.payloads bs).getLast?.toList.map Utf8.decode := by
  change ((Word.filter.rests (bs.map textOf)).getLast?.map String.ofList).toList.map
    String.toList = _
  rw [getLast?_rests]
  cases (Word.filter.payloads bs).getLast? with
  | none => rfl
  | some b => exact congrArg (· :: []) String.toList_ofList

theorem fits_of_value {w : Word} {b : Bytes} (h : w.Writable b) :
    (Line.data (Utf8.encode (w.text ++ ' ' :: Utf8.decode b ++ ['\n']))).Fits := by
  have hlength := h.2
  change (Utf8.encode (w.text ++ ' ' :: Utf8.decode b ++ ['\n'])).length + 4 < 65536
  rw [length_value, encode_decode_eq.mpr h.1]
  omega

/-- The values that are no texts are short. -/
theorem length_valuesOf (bs : List Bytes) {w : Word} (hw : w ∉ [Word.wantRef, .deepenNot, .filter])
    {value : List Char} (h : value ∈ w.valuesOf (rebuilt bs)) :
    (Utf8.encode value).length ≤ 64 := by
  have hoids : ∀ texts, ∀ value ∈ (oids texts).map String.toList,
      (Utf8.encode value).length ≤ 64 := by
    intro texts value hvalue
    obtain ⟨oid, hoid, rfl⟩ := List.mem_map.mp hvalue
    exact length_oid (fromHex_of_mem_oids hoid)
  cases w with
  | wants | haves | shallow => exact hoids _ value h
  | wantRef | deepenNot | filter => exact absurd (by decide) hw
  | deepen =>
    obtain ⟨n, hn, rfl⟩ := List.mem_map.mp h
    rw [Option.mem_toList, rebuilt_deepen, Option.bind_eq_some_iff] at hn
    obtain ⟨b, -, hb⟩ := hn
    rw [Option.filter_eq_some_iff, decide_eq_true_iff] at hb
    have hn : n < 10 ^ 10 := Nat.lt_trans hb.2 (by decide)
    exact Nat.le_trans (length_toDigits (by decide) hn) (by decide)
  | deepenSince =>
    obtain ⟨t, ht, rfl⟩ := List.mem_map.mp h
    rw [Option.mem_toList, rebuilt_deepenSince, Option.bind_eq_some_iff] at ht
    obtain ⟨b, -, hb⟩ := ht
    rw [Option.filter_eq_some_iff] at hb
    exact Nat.le_trans (length_decimal hb.2) (by decide)
  | _ => cases h

theorem Kept.plain {bs : List Bytes} (h : Kept bs) : Plain bs :=
  ⟨h.absolute, h.oids, fun w hw b hb => (h.refs w hw b hb).1, fun b hb => (h.filter b hb).1,
    h.deepen, h.deepenSince⟩

theorem Kept.fits {bs : List Bytes} (h : Kept bs) :
    ∀ line ∈ arguments (rebuilt bs), (Line.data (Utf8.encode line)).Fits := by
  intro line hline
  rcases mem_arguments_cases rfl hline with hflag | ⟨w, value, hvalue, rfl⟩
  · exact Nat.lt_of_le_of_lt (Nat.add_le_add_right hflag 4) (by decide)
  · by_cases hw : w ∈ [Word.wantRef, .deepenNot, .filter]
    · simp only [List.mem_cons, List.not_mem_nil, or_false] at hw
      have hrefs : ∀ {w}, w ∈ [Word.wantRef, .deepenNot] → value ∈ w.valuesOf (rebuilt bs) →
          (Line.data (Utf8.encode (w.text ++ ' ' :: value ++ ['\n']))).Fits := by
        intro w hw hvalue
        rw [rebuilt_texts bs hw] at hvalue
        obtain ⟨b, hb, rfl⟩ := List.mem_map.mp hvalue
        exact fits_of_value (h.refs w hw b hb)
      rcases hw with rfl | rfl | rfl
      · exact hrefs (by decide) hvalue
      · exact hrefs (by decide) hvalue
      · rw [rebuilt_filter] at hvalue
        obtain ⟨b, hb, rfl⟩ := List.mem_map.mp hvalue
        exact fits_of_value (h.filter b (Option.mem_toList.mp hb))
    · have hlength := length_valuesOf bs hw hvalue
      have hword := w.length_bytes
      change (Utf8.encode (w.text ++ ' ' :: value ++ ['\n'])).length + 4 < 65536
      rw [length_value]
      omega

theorem writable_of_fits {w : Word} {b : Bytes} (htext : ∃ text, b = Utf8.encode text)
    (h : (Line.data (Utf8.encode (w.text ++ ' ' :: Utf8.decode b ++ ['\n']))).Fits) :
    w.Writable b := by
  change (Utf8.encode (w.text ++ ' ' :: Utf8.decode b ++ ['\n'])).length + 4 < 65536 at h
  rw [length_value, encode_decode_eq.mpr htext] at h
  exact ⟨htext, by omega⟩

theorem carries_iff (bs : List Bytes) : Carries (rebuilt bs) bs ↔ Kept bs := by
  rw [Carries, readRequest_eq, meaning_rebuilt]
  constructor
  · rintro ⟨hfits, habsolute, hoids, hrefs, hfilter, hdeepen, hsince⟩
    refine ⟨habsolute, hoids, fun w hw b hb => ?_, fun b hb => ?_, hdeepen, hsince⟩
    · refine writable_of_fits (hrefs w hw b hb) (hfits _ (value_mem_arguments ?_))
      rw [rebuilt_texts bs hw]
      exact List.mem_map_of_mem hb
    · refine writable_of_fits (hfilter b hb) (hfits _ (value_mem_arguments ?_))
      rw [rebuilt_filter]
      exact List.mem_map_of_mem (Option.mem_toList.mpr hb)
  · exact fun h => ⟨h.fits, h.plain⟩

/-- A request that was read is written with the same meaning exactly when its lines keep to what
the server knows of: no relative depth, ids that are ids, texts that are UTF-8 and fit in a packet,
numbers in their range. -/
theorem parseFetchRequest_carries_iff {r r' : Reader} {req : UploadPackRequest}
    (h : parseFetchRequest r = .ok (req, r')) :
    ∃ lines, readLines r = .ok (lines, r') ∧ (Carries req.clearUris lines ↔ Kept lines) := by
  rw [parseFetchRequest_eq] at h
  cases hread : readLines r with
  | error e =>
    rw [hread] at h
    cases h
  | ok p =>
    rw [hread] at h
    cases h
    exact ⟨p.1, rfl, carries_iff p.1⟩

/-- The bytes of a fetch with such lines. -/
def fetchOf (lines : List Bytes) : Bytes := lines.flatMap Pkt.encodeData ++ Pkt.encode .flush

theorem readLines_fetchOf {lines : List Bytes} (h : ∀ b ∈ lines, (Line.data b).Fits) :
    ∃ r', readLines [fetchOf lines] = .ok (lines, r') := by
  have hbytes : [fetchOf lines].flatten =
      lines.flatMap Pkt.dataFrame ++ (Pkt.encode .flush ++ []) := by
    rw [List.flatten_singleton, fetchOf, List.append_nil,
      List.flatMap_congr fun b hb => Pkt.encodeData_fits (h b hb)]
  obtain ⟨r', -, hread⟩ := Pkt.foldSection_flush (fun lines b => .ok (lines ++ [b])) h hbytes []
  rw [Framing.foldlM_collect] at hread
  exact ⟨r', hread⟩

/-- A fetch of one commit more than a shallow clone has. -/
def deepenLines : List Bytes :=
  [bytes "want 1111111111111111111111111111111111111111\n",
    bytes "shallow 2222222222222222222222222222222222222222\n",
    bytes "deepen 1\n", bytes "deepen-relative\n", bytes "done\n"]

theorem deepenLines_fits : ∀ b ∈ deepenLines, (Line.data b).Fits := by decide

theorem parseFetchRequest_deepen :
    ∃ req r', parseFetchRequest [fetchOf deepenLines] = .ok (req, r') ∧
      ∃ lines, readLines [fetchOf deepenLines] = .ok (lines, r') ∧
        (Carries req.clearUris lines ↔ Kept lines) := by
  obtain ⟨r', hread⟩ := readLines_fetchOf deepenLines_fits
  have hparse := parseFetchRequest_eq [fetchOf deepenLines]
  rw [hread] at hparse
  exact ⟨_, r', hparse, parseFetchRequest_carries_iff hparse⟩

/-- The backend is asked for a depth of one instead. -/
theorem deepenRelative_lost :
    ∃ req r' lines, parseFetchRequest [fetchOf deepenLines] = .ok (req, r') ∧
      readLines [fetchOf deepenLines] = .ok (lines, r') ∧
      (meaning lines).deepenRelative = true ∧
      (meaning ((arguments req.clearUris).map Utf8.encode)).deepenRelative = false ∧
      ¬ Carries req.clearUris lines := by
  obtain ⟨r', hread⟩ := readLines_fetchOf deepenLines_fits
  have hparse := parseFetchRequest_eq [fetchOf deepenLines]
  rw [hread] at hparse
  have hrelative : Word.deepenRelative.present deepenLines = true := by decide
  have hsent : (meaning ((arguments (rebuilt deepenLines)).map Utf8.encode)).deepenRelative =
      false := present_rebuilt deepenLines .deepenRelative
  have hlost : ¬ Carries (rebuilt deepenLines) deepenLines := by
    rintro ⟨-, hmeaning⟩
    have habsolute := ((meaning_rebuilt deepenLines).mp hmeaning).1
    rw [hrelative] at habsolute
    cases habsolute
  exact ⟨_, r', deepenLines, hparse, hread, hrelative, hsent, hlost⟩

end Carried

end Walgit.FetchArgs
