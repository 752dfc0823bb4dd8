import Walgit.PackfileUri
import Walgit.ReceiveBytes

/-!
# Splicing a response

The engine answers a fetch that has the offered packs' branches among its haves. On the way to
the client the acknowledgments of those haves are left out, and the offered packs are named
before the packfile section.
-/
namespace Walgit.ResponseSplice

open Policy (bytes)
open Pkt (Bytes Line Reader Error encode readPktLine)
open Text

/-- Data on the first channel of a sideband, if there is one. -/
def banded (sideband : Bool) (data : Bytes) : Bytes := if sideband then 1 :: data else data

/-- Bytes as text, if they are the bytes of one. -/
def fromUtf8 (b : Bytes) : Option (List Char) :=
  if Utf8.encode (Utf8.decode b) = b then some (Utf8.decode b) else none

section Splice

variable (packs : List PackfileUri) (synthetic : List Oid) (sideband : Bool)

def uriLine (pack : PackfileUri) : Bytes := bytes (pack.checksum ++ " " ++ pack.url ++ "\n")

def indexLine (pack : PackfileUri) : Option Bytes :=
  pack.index.map fun index =>
    bytes (pack.checksum ++ " " ++ index.checksum ++ " " ++ index.url ++ "\n")

/-- The packets of a section, with the delimiter behind it. -/
def sectionLines (title : String) (content : List Bytes) : List Line :=
  (bytes title :: content).map (.data ∘ banded sideband) ++ [.delim]

def uriSections : List Line :=
  sectionLines sideband "packfile-uris\n" (packs.map uriLine) ++
    if packs.any fun p => p.index.isSome then
      sectionLines sideband "packfile-indexes\n" (packs.filterMap indexLine)
    else []

/-- The acknowledgment of a have the client does not know of. -/
def acked (payload : Bytes) : Bool :=
  (bytes "ACK ").isPrefixOf payload && (fromUtf8 (payload.drop 4)).any fun oid =>
    synthetic.contains (String.ofList (oid.rdropWhile isWhitespace))

/-- The payload of a packet, `none` on the channels that are passed on. -/
def payload (data : Bytes) : Except Error (Option Bytes) :=
  if sideband then
    match data with
    | [] => .error (.git (.protocol "invalid response sideband"))
    | band :: rest =>
      if band = 1 then .ok (some rest)
      else if band = 2 ∨ band = 3 then .ok none
      else .error (.git (.protocol "invalid response sideband"))
  else .ok (some data)

/-- What is written for a packet, `none` where the packfile section begins. -/
def relay : Line → Except Error (Option (List Bytes))
  | .data data =>
    match payload sideband data with
    | .error e => .error e
    | .ok none => .ok (some (Pkt.write (.data data)))
    | .ok (some body) =>
      if acked synthetic body then .ok (some [])
      else if body = bytes "packfile\n" then .ok none
      else .ok (some (Pkt.write (.data data)))
  | .delim => .ok (some (Pkt.write .delim))
  | .flush | .responseEnd =>
    .error (.git (.protocol "native response ended without selected URI delivery"))

/-- The loop; `none` when the fuel runs out. From the packfile section on, all is copied. -/
def spliceFor : ℕ → Reader → Option (Except Error (List Bytes))
  | 0, _ => none
  | n + 1, source =>
    match readPktLine source with
    | .error e => some (.error e)
    | .ok (none, _) =>
      some (.error (.git (.protocol "truncated native response before packfile")))
    | .ok (some packet, source) =>
      match relay synthetic sideband packet with
      | .error e => some (.error e)
      | .ok (some written) => (spliceFor n source).map (·.map (written ++ ·))
      | .ok none => some (.ok ((uriSections packs sideband).flatMap Pkt.write ++
          Pkt.write (.data (banded sideband (bytes "packfile\n"))) ++ source))

/-- Every packet has a header of four bytes. -/
def splice (source : Reader) : Option (Except Error (List Bytes)) :=
  spliceFor packs synthetic sideband (source.flatten.length + 1) source

end Splice

section Response

variable (synthetic : List Oid) (sideband : Bool)

/-- The packet that begins the packfile section. -/
def header : Line := .data (banded sideband (bytes "packfile\n"))

/-- A packet that can stand before the packfile section. -/
def Early : Line → Prop
  | .data data => Line.data data ≠ header sideband ∧
    (sideband = true → ∃ band rest, data = band :: rest ∧ (band = 1 ∨ band = 2 ∨ band = 3))
  | .delim => True
  | .flush => False
  | .responseEnd => False

/-- The acknowledgment of one of the haves, in a line of its own. -/
def Acks : Line → Prop
  | .data data => ∃ oid ∈ synthetic, ∃ ending : List Char, (∀ c ∈ ending, isWhitespace c = true) ∧
    data = banded sideband (bytes ("ACK " ++ oid) ++ Utf8.encode ending)
  | _ => False

end Response

variable {packs : List PackfileUri} {synthetic : List Oid} {sideband : Bool}

theorem fromUtf8_eq_some {b : Bytes} {text : List Char} :
    fromUtf8 b = some text ↔ b = Utf8.encode text := by
  unfold fromUtf8
  constructor
  · intro h
    split_ifs at h with hvalid
    cases h
    exact hvalid.symm
  · rintro rfl
    rw [Utf8.decode_encode, if_pos rfl]

theorem acked_iff (hhex : ∀ oid ∈ synthetic, ∀ c ∈ oid.toList, isAsciiHexDigit c = true)
    (body : Bytes) :
    acked synthetic body = true ↔ ∃ oid ∈ synthetic, ∃ ending : List Char,
      (∀ c ∈ ending, isWhitespace c = true) ∧
        body = bytes ("ACK " ++ oid) ++ Utf8.encode ending := by
  have hbytes : ∀ oid : Oid, ∀ ending, bytes ("ACK " ++ oid) ++ Utf8.encode ending =
      bytes "ACK " ++ Utf8.encode (oid.toList ++ ending) := by
    intro oid ending
    simp [bytes, Utf8.encode, String.toList_append]
  simp only [acked, Bool.and_eq_true, List.isPrefixOf_iff_prefix, Option.any_eq_true,
    fromUtf8_eq_some, List.contains_iff_mem, hbytes]
  constructor
  · rintro ⟨⟨rest, rfl⟩, text, htext, hmem⟩
    rw [List.drop_left' (by decide)] at htext
    refine ⟨_, hmem, text.rtakeWhile isWhitespace, fun c hc => List.mem_rtakeWhile_imp hc, ?_⟩
    rw [String.toList_ofList, List.rdropWhile_append_rtakeWhile, htext]
  · rintro ⟨oid, hoid, ending, hending, rfl⟩
    refine ⟨List.prefix_append _ _, oid.toList ++ ending, List.drop_left' (by decide), ?_⟩
    have htrim : (oid.toList ++ ending).rdropWhile isWhitespace = oid.toList :=
      ReceiveBytes.trimEnd_append (fun c hc => ReceiveBytes.word_of_hex (hhex oid hoid) c
        (List.mem_of_getLast? hc)) hending
    rwa [htrim, String.ofList_toList]

theorem not_acked_packfile : acked synthetic (bytes "packfile\n") = false := by
  have h : (bytes "ACK ").isPrefixOf (bytes "packfile\n") = false := by decide
  rw [acked, h, Bool.false_and]

theorem relay_header : relay synthetic sideband (header sideband) = .ok none := by
  cases sideband <;> simp [relay, header, banded, payload, not_acked_packfile]

section Kept

open Classical in
/-- What is left of the packets before the packfile section. -/
noncomputable def kept (synthetic : List Oid) (sideband : Bool) (lines : List Line) : List Line :=
  lines.filter fun line => ¬ Acks synthetic sideband line

variable (hhex : ∀ oid ∈ synthetic, ∀ c ∈ oid.toList, isAsciiHexDigit c = true)

include hhex

theorem relay_early {line : Line} (h : Early sideband line) :
    relay synthetic sideband line =
      .ok (some ((kept synthetic sideband [line]).flatMap Pkt.write)) := by
  have hkept : ∀ b : Bool, (b = true ↔ Acks synthetic sideband line) →
      (kept synthetic sideband [line]).flatMap Pkt.write = if b then [] else Pkt.write line := by
    intro b hb
    simp [kept, List.filter_cons, ← hb]
    cases b <;> simp
  cases line with
  | delim => rw [hkept false (by simp [Acks])]; rfl
  | flush => exact h.elim
  | responseEnd => exact h.elim
  | data data =>
    obtain ⟨hheader, hband⟩ := h
    cases sideband with
    | false =>
      rw [hkept (acked synthetic data) (acked_iff hhex data)]
      have hne : data ≠ bytes "packfile\n" := fun heq => hheader (heq ▸ rfl)
      simp only [relay, payload, Bool.false_eq_true, if_false, hne]
      split_ifs <;> rfl
    | true =>
      obtain ⟨band, rest, rfl, hchannel⟩ := hband rfl
      by_cases hone : band = 1
      · subst hone
        rw [hkept (acked synthetic rest) (by simp [acked_iff hhex, Acks, banded])]
        have hne : rest ≠ bytes "packfile\n" := fun heq => hheader (heq ▸ rfl)
        simp only [relay, payload, if_true, hne, if_false]
        split_ifs <;> rfl
      · have hother : band = 2 ∨ band = 3 := hchannel.resolve_left hone
        rw [hkept false (by simp [Acks, banded, hone])]
        simp [relay, payload, hone, hother]

end Kept

theorem payload_ok {data : Bytes} {body : Option Bytes} (h : payload sideband data = .ok body) :
    sideband = true → ∃ band rest, data = band :: rest ∧ (band = 1 ∨ band = 2 ∨ band = 3) := by
  rintro rfl
  cases data with
  | nil => cases h
  | cons band rest =>
    simp only [payload, if_true] at h
    split_ifs at h with hone hother
    · exact ⟨band, rest, rfl, .inl hone⟩
    · exact ⟨band, rest, rfl, .inr hother⟩

theorem header_of_payload {data : Bytes}
    (h : payload sideband data = .ok (some (bytes "packfile\n"))) :
    Line.data data = header sideband := by
  cases sideband with
  | false =>
    cases h
    rfl
  | true =>
    obtain ⟨band, rest, rfl, -⟩ := payload_ok h rfl
    simp only [payload, if_true] at h
    split_ifs at h with hone
    · cases h
      rw [hone]
      rfl
    · cases h

/-- A packet that is no error begins the packfile section or can stand before it. -/
theorem relay_ok {line : Line} {written : Option (List Bytes)}
    (h : relay synthetic sideband line = .ok written) :
    (written = none ∧ line = header sideband) ∨
      ((∃ w, written = some w) ∧ Early sideband line) := by
  by_cases hheader : line = header sideband
  · rw [hheader, relay_header] at h
    cases h
    exact .inl ⟨rfl, hheader⟩
  cases line with
  | delim => cases h; exact .inr ⟨⟨_, rfl⟩, trivial⟩
  | flush => cases h
  | responseEnd => cases h
  | data data =>
    rw [relay] at h
    cases hbody : payload sideband data with
    | error e => rw [hbody] at h; cases h
    | ok body =>
      have hearly : Early sideband (.data data) := ⟨hheader, payload_ok hbody⟩
      have hsome : written ≠ none := by
        rintro rfl
        rw [hbody] at h
        cases body with
        | none => cases h
        | some body =>
          dsimp only at h
          split_ifs at h with hacked htitle
          · cases h
          · exact hheader (header_of_payload (htitle ▸ hbody))
          · cases h
      exact .inr ⟨Option.ne_none_iff_exists'.mp hsome, hearly⟩

/-- A stream as the packets before the packfile section and the bytes behind its header. -/
structure Native (sideband : Bool) (stream : Bytes) (lines : List Line) (rest : Bytes) : Prop where
  early : ∀ line ∈ lines, Early sideband line
  framed : ∃ frames frame, List.Forall₂ Pkt.Framed frames lines ∧
    Pkt.Framed frame (header sideband) ∧ stream = frames.flatten ++ (frame ++ rest)

theorem native_encode {lines : List Line}
    (h : ∀ line ∈ lines, Early sideband line ∧ line.Bounded) (rest : Bytes) :
    Native sideband ((lines.map encode).flatten ++ (encode (header sideband) ++ rest)) lines
      rest := by
  refine ⟨fun line hline => (h line hline).1, lines.map encode, _, ?_,
    Pkt.framed_encode (by cases sideband <;> decide), rfl⟩
  rw [List.forall₂_map_left_iff]
  exact List.forall₂_same.mpr fun line hline => Pkt.framed_encode (h line hline).2.fits

theorem four_le_framed {frame : Bytes} {line : Line} (h : Pkt.Framed frame line) :
    4 ≤ frame.length := by
  cases line with
  | data buf =>
    obtain ⟨hdr, h4, -, rfl⟩ := h
    rw [List.length_append, h4]
    omega
  | flush => exact h.1.ge
  | delim => exact h.1.ge
  | responseEnd => exact h.1.ge

section Runs

variable (packs synthetic sideband) in
/-- Every packet takes four bytes, so that the loop ends. -/
theorem spliceFor_isSome {n : ℕ} {r : Reader} (h : r.flatten.length < n) :
    (spliceFor packs synthetic sideband n r).isSome := by
  induction n generalizing r with
  | zero => omega
  | succ n ih =>
    rw [spliceFor]
    cases hread : readPktLine r with
    | error e => rfl
    | ok p =>
      obtain ⟨line, r'⟩ := p
      cases line with
      | none => rfl
      | some line =>
        dsimp only
        cases relay synthetic sideband line with
        | error e => rfl
        | ok written =>
          cases written with
          | none => rfl
          | some w =>
            obtain ⟨frame, hframe, hframed⟩ := Pkt.readPktLine_framed hread
            have h4 := four_le_framed hframed
            have hlen := congrArg List.length hframe
            rw [List.length_append] at hlen
            simpa using ih (r := r') (by omega)

/-- A stream that was spliced has a packfile section. -/
theorem native_of_spliceFor {n : ℕ} {r : Reader} {out : List Bytes}
    (h : spliceFor packs synthetic sideband n r = some (.ok out)) :
    ∃ lines rest, Native sideband r.flatten lines rest := by
  induction n generalizing r out with
  | zero => cases h
  | succ n ih =>
    rw [spliceFor] at h
    cases hread : readPktLine r with
    | error e => rw [hread] at h; cases h
    | ok p =>
      obtain ⟨line, r'⟩ := p
      rw [hread] at h
      cases line with
      | none => cases h
      | some line =>
        obtain ⟨frame, hframe, hframed⟩ := Pkt.readPktLine_framed hread
        dsimp only at h
        cases hrelay : relay synthetic sideband line with
        | error e => rw [hrelay] at h; cases h
        | ok written =>
          rw [hrelay] at h
          rcases relay_ok hrelay with ⟨rfl, rfl⟩ | ⟨⟨w, rfl⟩, hearly⟩
          · exact ⟨[], r'.flatten, by simp, [], frame, .nil, hframed, hframe⟩
          · obtain ⟨result, hresult, -⟩ := Option.map_eq_some_iff.mp h
            cases result with
            | error e => simp [hresult, Except.map] at h
            | ok out' =>
              obtain ⟨lines, rest, hlines, frames, last, hframes, hlast, hstream⟩ := ih hresult
              refine ⟨line :: lines, rest, List.forall_mem_cons.mpr ⟨hearly, hlines⟩,
                frame :: frames, last, .cons hframed hframes, hlast, ?_⟩
              rw [hframe, hstream, List.flatten_cons, List.append_assoc]

theorem kept_cons (line : Line) (lines : List Line) :
    kept synthetic sideband (line :: lines) =
      kept synthetic sideband [line] ++ kept synthetic sideband lines := by
  rw [kept, kept, kept, ← List.filter_append, List.singleton_append]

/-- The packets of a stream are read one by one, and what is behind the header is copied. -/
theorem spliceFor_native (packs : List PackfileUri)
    (hhex : ∀ oid ∈ synthetic, ∀ c ∈ oid.toList, isAsciiHexDigit c = true) {n : ℕ} {r : Reader}
    {lines : List Line} {rest : Bytes}
    (h : Native sideband r.flatten lines rest) (hn : lines.length < n) :
    ∃ r', r'.flatten = rest ∧ spliceFor packs synthetic sideband n r =
      some (.ok ((kept synthetic sideband lines).flatMap Pkt.write ++
        ((uriSections packs sideband).flatMap Pkt.write ++ Pkt.write (header sideband) ++
          r'))) := by
  obtain ⟨hearly, frames, last, hframes, hlast, hstream⟩ := h
  induction hframes generalizing n r with
  | nil =>
    obtain ⟨m, rfl⟩ : ∃ m, n = m + 1 := ⟨n - 1, by omega⟩
    obtain ⟨r', hread, hr'⟩ := Pkt.readPktLine_of_framed hlast hstream
    refine ⟨r', hr', ?_⟩
    simp only [spliceFor, hread, relay_header, kept, List.filter_nil, List.flatMap_nil,
      List.nil_append]
    rfl
  | @cons frame line frames lines hframe hframes ih =>
    obtain ⟨m, rfl⟩ : ∃ m, n = m + 1 := ⟨n - 1, by omega⟩
    rw [List.forall_mem_cons] at hearly
    rw [List.flatten_cons, List.append_assoc] at hstream
    rw [List.length_cons] at hn
    obtain ⟨r₁, hread, hr₁⟩ := Pkt.readPktLine_of_framed hframe hstream
    have hlt : lines.length < m := by omega
    obtain ⟨r', hr', hrest⟩ := ih hlt hearly.2 hr₁
    refine ⟨r', hr', ?_⟩
    simp only [spliceFor, hread, relay_early hhex hearly.1, hrest, Option.map_some, Except.map]
    rw [kept_cons line lines, List.flatMap_append]
    simp only [List.append_assoc]

end Runs

theorem length_le_native {stream rest : Bytes} {lines : List Line}
    (h : Native sideband stream lines rest) : lines.length ≤ stream.length := by
  obtain ⟨-, frames, last, hframes, -, rfl⟩ := h
  have hle : lines.length ≤ frames.flatten.length := by
    clear last rest
    induction hframes with
    | nil => exact Nat.le_refl _
    | cons hframe _ ih =>
      have h4 := four_le_framed hframe
      rw [List.flatten_cons, List.length_append, List.length_cons]
      omega
  rw [List.length_append]
  omega

theorem write_bounded {line : Line} (h : line.Bounded) : Pkt.write line = [encode line] := by
  rw [Pkt.write_eq, h.parts_eq, List.map_singleton]

theorem flatMap_write {lines : List Line} (h : ∀ line ∈ lines, line.Bounded) :
    lines.flatMap Pkt.write = lines.map encode := by
  induction lines with
  | nil => rfl
  | cons line lines ih =>
    rw [List.forall_mem_cons] at h
    rw [List.flatMap_cons, write_bounded h.1, ih h.2, List.map_cons, List.singleton_append]

theorem header_bounded : (header sideband).Bounded := by
  cases sideband with
  | false => exact (by decide : (bytes "packfile\n").length ≤ Pkt.maxPktData)
  | true => exact (by decide : (1 :: bytes "packfile\n").length ≤ Pkt.maxPktData)

/-- A pack whose lines fit in a packet, as the caller checks. -/
def Sized (pack : PackfileUri) : Prop :=
  (bytes pack.url).length + (bytes pack.checksum).length + 3 ≤ Pkt.maxPktData ∧
    ∀ index ∈ pack.index, (bytes index.url).length +
      ((bytes pack.checksum).length + (bytes index.checksum).length) + 4 ≤ Pkt.maxPktData

theorem length_banded (data : Bytes) : (banded sideband data).length ≤ data.length + 1 := by
  cases sideband
  · exact Nat.le_succ _
  · exact Nat.le_refl _

theorem bytes_append (s t : String) : bytes (s ++ t) = bytes s ++ bytes t := by
  simp [bytes, String.toList_append]

theorem uriSections_bounded (hpacks : ∀ pack ∈ packs, Sized pack) :
    ∀ line ∈ uriSections packs sideband, line.Bounded := by
  have hsection : ∀ title content, (∀ b ∈ bytes title :: content, b.length + 1 ≤ Pkt.maxPktData) →
      ∀ line ∈ sectionLines sideband title content, line.Bounded := by
    intro title content hcontent line hline
    rcases List.mem_append.mp hline with hline | hline
    · obtain ⟨b, hb, rfl⟩ := List.mem_map.mp hline
      exact (length_banded b).trans (hcontent b hb)
    · rw [List.mem_singleton.mp hline]
      trivial
  have hblank : (bytes " ").length = 1 := by decide
  have hnewline : (bytes "\n").length = 1 := by decide
  have huris := hsection "packfile-uris\n" (packs.map uriLine) <| by
    refine List.forall_mem_cons.mpr ⟨by decide, fun b hb => ?_⟩
    obtain ⟨pack, hpack, rfl⟩ := List.mem_map.mp hb
    have hurl := (hpacks pack hpack).1
    simp only [uriLine, bytes_append, List.length_append]
    omega
  have hindexes := hsection "packfile-indexes\n" (packs.filterMap indexLine) <| by
    refine List.forall_mem_cons.mpr ⟨by decide, fun b hb => ?_⟩
    obtain ⟨pack, hpack, hb⟩ := List.mem_filterMap.mp hb
    obtain ⟨index, hindex, rfl⟩ := Option.map_eq_some_iff.mp hb
    have hurl := (hpacks pack hpack).2 index hindex
    simp only [bytes_append, List.length_append]
    omega
  unfold uriSections
  split_ifs
  · exact List.forall_mem_append.mpr ⟨huris, hindexes⟩
  · rwa [List.append_nil]

/-- A response with a packfile section loses the acknowledgments of the synthetic haves and gets
the sections before that one; any other stream is refused. Sized packs take a packet a line. -/
theorem splice_response (packs : List PackfileUri) (synthetic : List Oid) (sideband : Bool)
    (hhex : ∀ oid ∈ synthetic, ∀ c ∈ oid.toList, isAsciiHexDigit c = true) :
    (∀ r lines rest, Native sideband r.flatten lines rest → (∀ line ∈ lines, line.Bounded) →
      ∃ out, splice packs synthetic sideband r = some (.ok out) ∧
        out.flatten = ((kept synthetic sideband lines).map encode).flatten ++
          (((uriSections packs sideband).flatMap Pkt.write).flatten ++
            (encode (header sideband) ++ rest))) ∧
    (∀ r, (¬ ∃ lines rest, Native sideband r.flatten lines rest) →
      ∃ e, splice packs synthetic sideband r = some (.error e)) ∧
    ((∀ pack ∈ packs, Sized pack) →
      (uriSections packs sideband).flatMap Pkt.write =
        (uriSections packs sideband).map encode) := by
  refine ⟨fun r lines rest hnative hbounded => ?_, fun r hnone => ?_,
    fun hpacks => flatMap_write (uriSections_bounded hpacks)⟩
  · have hlength := length_le_native hnative
    obtain ⟨r', hr', hsplice⟩ :=
      spliceFor_native packs hhex hnative (Nat.lt_succ_of_le hlength)
    refine ⟨_, hsplice, ?_⟩
    have hkept : ∀ line ∈ kept synthetic sideband lines, line.Bounded :=
      fun line hline => hbounded line (List.mem_of_mem_filter hline)
    rw [flatMap_write hkept, write_bounded header_bounded]
    simp only [List.flatten_append, List.flatten_singleton, List.append_assoc, hr']
  · obtain ⟨result, hresult⟩ := Option.isSome_iff_exists.mp
      (spliceFor_isSome packs synthetic sideband (Nat.lt_succ_self r.flatten.length))
    cases result with
    | error e => exact ⟨e, hresult⟩
    | ok out => exact absurd (native_of_spliceFor hresult) hnone

/-- The packets of an answer that acknowledges one have. -/
def oneAck : List Line :=
  [.data (bytes "acknowledgments\n"), .data (bytes ("ACK " ++ repeated '1' ++ "\n")),
    .data (bytes "ready\n"), .delim]

theorem splice_response_oneAck :
    ∃ out, splice [⟨repeated '2', "https://example.invalid/one.pack", none⟩] [repeated '1'] false
        [(oneAck.map encode).flatten ++ (encode (header false) ++ bytes "PACK")] =
          some (.ok out) ∧
      out.flatten = ((kept [repeated '1'] false oneAck).map encode).flatten ++
        (((uriSections [⟨repeated '2', "https://example.invalid/one.pack", none⟩] false).flatMap
          Pkt.write).flatten ++ (encode (header false) ++ bytes "PACK")) := by
  have hlines : ∀ line ∈ oneAck, Early false line ∧ line.Bounded := by
    simp only [oneAck, List.forall_mem_cons, List.not_mem_nil, false_imp_iff, implies_true,
      and_true]
    exact ⟨⟨⟨by decide, nofun⟩, (by decide : _ ≤ 65516)⟩, ⟨⟨by decide, nofun⟩,
      (by decide : _ ≤ 65516)⟩, ⟨⟨by decide, nofun⟩, (by decide : _ ≤ 65516)⟩, trivial, trivial⟩
  have hhex : ∀ oid ∈ [repeated '1'], ∀ c ∈ oid.toList, isAsciiHexDigit c = true :=
    List.forall_mem_singleton.mpr (List.all_eq_true.mp (by decide))
  refine (splice_response _ [repeated '1'] false hhex).1 _ oneAck (bytes "PACK") ?_
    fun line hline => (hlines line hline).2
  rw [List.flatten_singleton]
  exact native_encode hlines (bytes "PACK")

end Walgit.ResponseSplice
