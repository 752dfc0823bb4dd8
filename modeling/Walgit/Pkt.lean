import Walgit.Framing
import Walgit.Policy

/-!
# Pkt-lines

A packet is a length of four hexadecimal digits, its own size included, and that many bytes;
the lengths that a packet cannot have are the control packets. A band of a sideband is a packet
whose first byte names its channel.
-/
namespace Walgit.Pkt

open Policy (bytes)

abbrev Bytes := List UInt8

/-- The most bytes of data in one packet. -/
def maxPktData : ℕ := 65516

/-- The longest packet. -/
def maxPkt : ℕ := 65520

inductive Line where
  | data (data : Bytes)
  | flush
  | delim
  | responseEnd
  deriving DecidableEq, Repr

inductive Error where
  | unexpectedEof
  | git (error : GitError)
  deriving DecidableEq, Repr

/-- What is left to be read, as it arrives. -/
abbrev Reader := List Bytes

def hexByte (d : ℕ) : UInt8 := (Nat.digitChar d).toUInt8

def hexValue (b : UInt8) : Option ℕ :=
  if 48 ≤ b ∧ b ≤ 57 then some (b - 48).toNat
  else if 97 ≤ b ∧ b ≤ 102 then some (b - 97 + 10).toNat
  else if 65 ≤ b ∧ b ≤ 70 then some (b - 65 + 10).toNat
  else none

def lowerHex (n : ℕ) : String := String.ofList (Nat.toDigits 16 n)

/-- A length with one more digit. -/
def addDigit (val : ℕ) (b : UInt8) : Except Error ℕ :=
  match hexValue b with
  | some d => .ok (val * 16 + d)
  | none => .error (.git (.protocol ("non-hex pkt-line char 0x" ++ lowerHex b.toNat)))

def parsePktLen (hdr : Bytes) : Except Error ℕ := hdr.foldlM addDigit 0

/-- What follows a header. -/
def readBody (len : ℕ) (r : Reader) : Except Error (Option Line × Reader) :=
  if len = 0 then .ok (some .flush, r)
  else if len = 1 then .ok (some .delim, r)
  else if len = 2 then .ok (some .responseEnd, r)
  else if len < 4 then .error (.git (.protocol ("invalid pkt-line length " ++ toString len)))
  else
    let (buf, r) := Framing.fill (len - 4) r
    if buf.length < len - 4 then .error .unexpectedEof else .ok (some (.data buf), r)

/-- The next packet, `none` at the end. -/
def readPktLine (r : Reader) : Except Error (Option Line × Reader) :=
  let (hdr, r) := Framing.fill 4 r
  if hdr.length = 0 then .ok (none, r)
  else if hdr.length < 4 then .error (.git (.protocol "short pkt-line header"))
  else match parsePktLen hdr with
    | .error e => .error e
    | .ok len => readBody len r

/-- At least four digits. -/
def pktLenHex (len : ℕ) : Bytes :=
  let digits := (Nat.toDigits 16 len).map Char.toUInt8
  List.replicate (4 - digits.length) 48 ++ digits

/-- Data behind its length, of which four digits are kept. -/
def encodeData (b : Bytes) : Bytes :=
  let total := b.length + 4
  [hexByte ((total >>> 12) &&& 0xf), hexByte ((total >>> 8) &&& 0xf),
    hexByte ((total >>> 4) &&& 0xf), hexByte (total &&& 0xf)] ++ b

/-- The packets that are written for some data. -/
def writePktLine (data : Bytes) : List Bytes :=
  if data.isEmpty then [bytes "0004"]
  else (Framing.chunks maxPktData data).map fun chunk => pktLenHex (chunk.length + 4) ++ chunk

def write : Line → List Bytes
  | .data data => writePktLine data
  | .flush => [bytes "0000"]
  | .delim => [bytes "0001"]
  | .responseEnd => [bytes "0002"]

inductive Channel where
  | data
  | progress
  | error
  deriving DecidableEq, Repr

def Channel.byte : Channel → UInt8
  | .data => 1
  | .progress => 2
  | .error => 3

/-- The bands that are written for some bytes on a channel. -/
def writeChannel (channel : Channel) (buf : Bytes) : List Bytes :=
  if buf.isEmpty then [pktLenHex (4 + 1) ++ [channel.byte]]
  else (Framing.chunks (maxPktData - 1) buf).map fun chunk =>
    pktLenHex (chunk.length + 4 + 1) ++ [channel.byte] ++ chunk

section Lengths

theorem hexValue_hexByte {d : ℕ} (h : d < 16) : hexValue (hexByte d) = some d := by
  have hall : ∀ d : Fin 16, hexValue (hexByte d) = some d.val := by decide
  exact hall ⟨d, h⟩

/-- The last `w` digits of a number. -/
def hexDigits : ℕ → ℕ → Bytes
  | 0, _ => []
  | w + 1, n => hexDigits w (n / 16) ++ [hexByte (n % 16)]

theorem length_hexDigits (w n : ℕ) : (hexDigits w n).length = w := by
  induction w generalizing n with
  | zero => rfl
  | succ w ih => rw [hexDigits, List.length_append, ih, List.length_singleton]

theorem hexDigits_zero (w : ℕ) : hexDigits w 0 = List.replicate w 48 := by
  induction w with
  | zero => rfl
  | succ w ih => rw [hexDigits, Nat.zero_div, ih, List.replicate_succ']; rfl

theorem padded_eq (w : ℕ) {n : ℕ} (h : n < 16 ^ (w + 1)) :
    List.replicate (w + 1 - (Nat.toDigits 16 n).length) 48 ++
      (Nat.toDigits 16 n).map Char.toUInt8 = hexDigits (w + 1) n := by
  induction w generalizing n with
  | zero =>
    rw [Nat.toDigits_of_lt_base (by simpa using h), hexDigits, Nat.mod_eq_of_lt (by simpa using h)]
    rfl
  | succ w ih =>
    rw [Nat.toDigits_eq_if (by decide)]
    split_ifs with hsmall
    · rw [hexDigits, Nat.div_eq_of_lt hsmall, hexDigits_zero, Nat.mod_eq_of_lt hsmall]
      rfl
    · have hdiv : n / 16 < 16 ^ (w + 1) := by
        rw [Nat.div_lt_iff_lt_mul (by decide), ← Nat.pow_succ]
        exact h
      rw [List.map_append, List.length_append, List.length_singleton, Nat.add_sub_add_right,
        ← List.append_assoc, ih hdiv, hexDigits]
      rfl

theorem pktLenHex_eq {len : ℕ} (h : len < 65536) : pktLenHex len = hexDigits 4 len := by
  rw [pktLenHex, List.length_map]
  exact padded_eq 3 h

theorem parsePktLen_hexDigits {w n : ℕ} (h : n < 16 ^ w) : parsePktLen (hexDigits w n) = .ok n := by
  induction w generalizing n with
  | zero =>
    obtain rfl : n = 0 := by simpa using h
    rfl
  | succ w ih =>
    have hdiv : n / 16 < 16 ^ w := by
      rw [Nat.div_lt_iff_lt_mul (by decide), ← Nat.pow_succ]
      exact h
    have hdigit : addDigit (n / 16) (hexByte (n % 16)) = .ok (n / 16 * 16 + n % 16) := by
      rw [addDigit, hexValue_hexByte (Nat.mod_lt n (by decide))]
    rw [parsePktLen, hexDigits, List.foldlM_append, ← parsePktLen, ih hdiv]
    change ([hexByte (n % 16)].foldlM addDigit (n / 16) : Except Error ℕ) = .ok n
    rw [List.foldlM_cons, hdigit]
    exact congrArg Except.ok (Nat.div_add_mod' n 16)

theorem hexValue_lt {b : UInt8} {d : ℕ} (h : hexValue b = some d) : d < 16 := by
  have hall : ∀ n : Fin 256, (hexValue (UInt8.ofNat n)).all (· < 16) = true := by decide +kernel
  have := hall ⟨b.toNat, b.toNat_lt⟩
  rw [UInt8.ofNat_toNat, h] at this
  simpa using this

/-- A length that was read is one of so many digits. -/
theorem parsePktLen_eq_ok {hdr : Bytes} {len : ℕ} (h : parsePktLen hdr = .ok len) :
    len < 16 ^ hdr.length ∧ ∀ b ∈ hdr, (hexValue b).isSome := by
  induction hdr using List.reverseRecOn generalizing len with
  | nil =>
    cases h
    simp
  | append_singleton hdr b ih =>
    rw [parsePktLen, List.foldlM_append, ← parsePktLen] at h
    cases hinit : parsePktLen hdr with
    | error e =>
      rw [hinit] at h
      cases h
    | ok n =>
      obtain ⟨hn, hdigits⟩ := ih hinit
      rw [hinit] at h
      change ([b].foldlM addDigit n : Except Error ℕ) = .ok len at h
      rw [List.foldlM_cons, addDigit] at h
      cases hb : hexValue b with
      | none =>
        rw [hb] at h
        cases h
      | some d =>
        rw [hb] at h
        cases h
        have := hexValue_lt hb
        rw [List.length_append, List.length_singleton, Nat.pow_succ, List.forall_mem_append]
        exact ⟨by omega, hdigits, by simp [hb]⟩

theorem length_pktLenHex {len : ℕ} (h : len < 65536) : (pktLenHex len).length = 4 := by
  rw [pktLenHex_eq h, length_hexDigits]

theorem parsePktLen_pktLenHex {len : ℕ} (h : len < 65536) :
    parsePktLen (pktLenHex len) = .ok len := by
  rw [pktLenHex_eq h]
  exact parsePktLen_hexDigits h

end Lengths

section Reading

theorem readPktLine_header {hdr : Bytes} {len : ℕ} (h4 : hdr.length = 4)
    (hlen : parsePktLen hdr = .ok len) {r : Reader} {tail : Bytes} (hr : r.flatten = hdr ++ tail) :
    ∃ r', readPktLine r = readBody len r' ∧ r'.flatten = tail := by
  obtain ⟨r', hfill, hr'⟩ := Framing.fill_append hr
  rw [h4] at hfill
  exact ⟨r', by simp [readPktLine, hfill, h4, hlen], hr'⟩

/-- One packet. -/
def encode : Line → Bytes
  | .data data => pktLenHex (data.length + 4) ++ data
  | .flush => bytes "0000"
  | .delim => bytes "0001"
  | .responseEnd => bytes "0002"

/-- Data that fits in one packet by its length. -/
def Line.Fits : Line → Prop
  | .data buf => buf.length + 4 < 65536
  | _ => True

instance : (line : Line) → Decidable line.Fits
  | .data buf => inferInstanceAs (Decidable (buf.length + 4 < 65536))
  | .flush | .delim | .responseEnd => inferInstanceAs (Decidable True)

/-- The bytes of a packet. -/
def Framed (frame : Bytes) : Line → Prop
  | .data buf => ∃ hdr : Bytes, hdr.length = 4 ∧ parsePktLen hdr = .ok (buf.length + 4) ∧
      frame = hdr ++ buf
  | .flush => frame.length = 4 ∧ parsePktLen frame = .ok 0
  | .delim => frame.length = 4 ∧ parsePktLen frame = .ok 1
  | .responseEnd => frame.length = 4 ∧ parsePktLen frame = .ok 2

theorem framed_encode {line : Line} (h : line.Fits) : Framed (encode line) line := by
  cases line with
  | data data => exact ⟨_, length_pktLenHex h, parsePktLen_pktLenHex h, rfl⟩
  | flush => exact ⟨by decide, by decide⟩
  | delim => exact ⟨by decide, by decide⟩
  | responseEnd => exact ⟨by decide, by decide⟩

theorem readPktLine_of_framed {frame : Bytes} {line : Line} (h : Framed frame line) {r : Reader}
    {rest : Bytes} (hr : r.flatten = frame ++ rest) :
    ∃ r', readPktLine r = .ok (some line, r') ∧ r'.flatten = rest := by
  cases line with
  | data buf =>
    obtain ⟨hdr, h4, hlen, rfl⟩ := h
    rw [List.append_assoc] at hr
    obtain ⟨r', hread, hr'⟩ := readPktLine_header h4 hlen hr
    obtain ⟨r'', hfill, hr''⟩ := Framing.fill_append hr'
    exact ⟨r'', by simp [hread, readBody, hfill], hr''⟩
  | flush => exact readPktLine_header h.1 h.2 hr
  | delim => exact readPktLine_header h.1 h.2 hr
  | responseEnd => exact readPktLine_header h.1 h.2 hr

theorem readsBack {line : Line} (h : line.Fits) :
    Framing.ReadsBack readPktLine List.flatten encode line :=
  fun _ _ hr => readPktLine_of_framed (framed_encode h) hr

theorem readPktLine_end {r : Reader} (h : r.flatten = []) :
    ∃ r', readPktLine r = .ok (none, r') ∧ r'.flatten = [] := by
  obtain ⟨r', hfill, hr'⟩ := Framing.fill_end 4 h
  exact ⟨r', by simp [readPktLine, hfill], hr'⟩

theorem readBody_framed {hdr : Bytes} {len : ℕ} (h4 : hdr.length = 4)
    (hlen : parsePktLen hdr = .ok len) {r r' : Reader} {line : Line}
    (h : readBody len r = .ok (some line, r')) :
    ∃ frame, hdr ++ r.flatten = frame ++ r'.flatten ∧ Framed frame line := by
  obtain ⟨buf, r₁, hfill, hsplit, hle⟩ := Framing.fill_split (len - 4) r
  rw [readBody, hfill] at h
  dsimp only at h
  split_ifs at h with h0 h1 h2 h3 hshort
  · cases h
    exact ⟨hdr, rfl, h4, h0 ▸ hlen⟩
  · cases h
    exact ⟨hdr, rfl, h4, h1 ▸ hlen⟩
  · cases h
    exact ⟨hdr, rfl, h4, h2 ▸ hlen⟩
  · cases h
    refine ⟨hdr ++ buf, by rw [hsplit, List.append_assoc], hdr, h4, ?_, rfl⟩
    rw [hlen, show buf.length + 4 = len by omega]

/-- A packet is all that is taken. -/
theorem readPktLine_framed {r r' : Reader} {line : Line}
    (h : readPktLine r = .ok (some line, r')) :
    ∃ frame, r.flatten = frame ++ r'.flatten ∧ Framed frame line := by
  obtain ⟨hdr, r₁, hfill, hsplit, hle⟩ := Framing.fill_split 4 r
  rw [readPktLine, hfill] at h
  dsimp only at h
  split_ifs at h with h0 h4
  · cases h
  · split at h
    · cases h
    · rename_i len hlen
      rw [hsplit]
      exact readBody_framed (by omega) hlen h

theorem readPktLine_none {r r' : Reader} (h : readPktLine r = .ok (none, r')) :
    r'.flatten = r.flatten := by
  obtain ⟨hdr, r₁, hfill, hsplit, -⟩ := Framing.fill_split 4 r
  rw [readPktLine, hfill] at h
  dsimp only at h
  split_ifs at h with h0 h4
  · cases h
    rw [hsplit, List.length_eq_zero_iff.mp h0, List.nil_append]
  · split at h
    · cases h
    · rename_i len hlen
      obtain ⟨buf, r₂, hbody, -, -⟩ := Framing.fill_split (len - 4) r₁
      rw [readBody, hbody] at h
      dsimp only at h
      split_ifs at h <;> cases h

end Reading

section Writing

/-- The packets that some data becomes. -/
def parts (data : Bytes) : List Line :=
  if data.isEmpty then [.data []] else (Framing.chunks maxPktData data).map .data

theorem writePktLine_eq (data : Bytes) : writePktLine data = (parts data).map encode := by
  unfold writePktLine parts
  split_ifs
  · exact (by decide : [bytes "0004"] = [pktLenHex 4])
  · rw [List.map_map]
    rfl

theorem parts_of_le {data : Bytes} (h : data.length ≤ maxPktData) : parts data = [.data data] := by
  unfold parts
  split_ifs with hnil
  · rw [List.isEmpty_iff.mp hnil]
  · rw [Framing.chunks_of_le (by simpa using hnil) h]
    rfl

/-- The packets that some bytes on a channel become. -/
def bands (channel : Channel) (buf : Bytes) : List Line :=
  if buf.isEmpty then [.data [channel.byte]]
  else (Framing.chunks (maxPktData - 1) buf).map fun chunk => .data (channel.byte :: chunk)

theorem writeChannel_eq (channel : Channel) (buf : Bytes) :
    writeChannel channel buf = (bands channel buf).map encode := by
  unfold writeChannel bands
  split_ifs
  · rfl
  · rw [List.map_map]
    refine List.map_congr_left fun chunk _ => ?_
    rw [List.append_assoc, Function.comp_apply, encode, List.length_cons, Nat.add_right_comm]
    rfl

/-- Data of the size that a writer gives one packet. -/
def Line.Bounded : Line → Prop
  | .data buf => buf.length ≤ maxPktData
  | _ => True

theorem Line.Bounded.fits {line : Line} (h : line.Bounded) : line.Fits := by
  cases line with
  | data buf =>
    have hle : buf.length ≤ 65516 := h
    exact (by omega : buf.length + 4 < 65536)
  | flush => trivial
  | delim => trivial
  | responseEnd => trivial

theorem length_encode {line : Line} (h : line.Bounded) : (encode line).length ≤ maxPkt := by
  cases line with
  | data buf =>
    have hle : buf.length ≤ 65516 := h
    rw [encode, List.length_append, length_pktLenHex (by omega), maxPkt]
    omega
  | flush => exact (by decide : (bytes "0000").length ≤ maxPkt)
  | delim => exact (by decide : (bytes "0001").length ≤ maxPkt)
  | responseEnd => exact (by decide : (bytes "0002").length ≤ maxPkt)

theorem parts_bounded {data : Bytes} : ∀ line ∈ parts data, line.Bounded := by
  intro line hline
  unfold parts at hline
  split_ifs at hline
  · rw [List.mem_singleton.mp hline]
    exact Nat.zero_le _
  · obtain ⟨chunk, hchunk, rfl⟩ := List.mem_map.mp hline
    exact (Framing.mem_chunks (by decide) hchunk).2

theorem bands_bounded {channel : Channel} {buf : Bytes} :
    ∀ line ∈ bands channel buf, line.Bounded := by
  intro line hline
  unfold bands at hline
  split_ifs at hline
  · rw [List.mem_singleton.mp hline]
    exact (by decide : 1 ≤ maxPktData)
  · obtain ⟨chunk, hchunk, rfl⟩ := List.mem_map.mp hline
    exact Nat.add_le_add_right (Framing.mem_chunks (by decide) hchunk).2 1

end Writing

section RoundTrip

/-- The data of the packets that some bytes on a channel become. -/
def bandFrames (channel : Channel) (buf : Bytes) : List Bytes :=
  if buf.isEmpty then [[channel.byte]]
  else (Framing.chunks (maxPktData - 1) buf).map (channel.byte :: ·)

theorem bands_eq (channel : Channel) (buf : Bytes) :
    bands channel buf = (bandFrames channel buf).map .data := by
  unfold bands bandFrames
  split_ifs
  · rfl
  · rw [List.map_map]
    rfl

theorem mem_bandFrames {channel : Channel} {buf frame : Bytes}
    (h : frame ∈ bandFrames channel buf) : ∃ rest, frame = channel.byte :: rest := by
  unfold bandFrames at h
  split_ifs at h
  · exact ⟨[], List.mem_singleton.mp h⟩
  · obtain ⟨chunk, -, rfl⟩ := List.mem_map.mp h
    exact ⟨chunk, rfl⟩

/-- What is done with a sideband. -/
inductive Call where
  | write (channel : Channel) (buf : Bytes)
  | flush

def Call.frames : Call → List Bytes
  | .write channel buf => writeChannel channel buf
  | .flush => [bytes "0000"]

def Call.lines : Call → List Line
  | .write channel buf => bands channel buf
  | .flush => [.flush]

/-- The bytes it puts on a channel. -/
def Call.on (channel : Channel) : Call → Bytes
  | .write c buf => if c = channel then buf else []
  | .flush => []

/-- The bytes of a packet that are on a channel. -/
def Line.on (channel : Channel) : Line → Bytes
  | .data (b :: buf) => if b = channel.byte then buf else []
  | _ => []

theorem Channel.byte_inj {c d : Channel} : c.byte = d.byte ↔ c = d := by
  cases c <;> cases d <;> decide

theorem frames_eq (call : Call) : call.frames = call.lines.map encode := by
  cases call with
  | write channel buf => exact writeChannel_eq channel buf
  | flush => rfl

/-- The packets that writing a packet gives. -/
def Line.parts : Line → List Line
  | .data buf => Pkt.parts buf
  | line => [line]

theorem write_eq (line : Line) : write line = line.parts.map encode := by
  cases line with
  | data buf => exact writePktLine_eq buf
  | flush => rfl
  | delim => rfl
  | responseEnd => rfl

theorem Line.Bounded.parts_eq {line : Line} (h : line.Bounded) : line.parts = [line] := by
  cases line with
  | data buf => exact parts_of_le h
  | flush => rfl
  | delim => rfl
  | responseEnd => rfl

theorem Line.parts_bounded (line : Line) : ∀ part ∈ line.parts, part.Bounded := by
  cases line with
  | data buf => exact Pkt.parts_bounded
  | flush => exact fun part hpart => List.mem_singleton.mp hpart ▸ trivial
  | delim => exact fun part hpart => List.mem_singleton.mp hpart ▸ trivial
  | responseEnd => exact fun part hpart => List.mem_singleton.mp hpart ▸ trivial

theorem lines_on (channel : Channel) (call : Call) :
    call.lines.flatMap (Line.on channel) = call.on channel := by
  cases call with
  | flush => rfl
  | write c buf =>
    rw [Call.lines, Call.on, bands]
    split_ifs with hnil hc hc
    · simp [Line.on, List.isEmpty_iff.mp hnil]
    · simp [Line.on]
    · have hchunk : ∀ chunk ∈ Framing.chunks (maxPktData - 1) buf,
          Line.on channel (.data (c.byte :: chunk)) = chunk := fun chunk _ => by
        rw [hc]
        exact if_pos rfl
      rw [List.flatMap_map, List.flatMap_congr hchunk, List.flatMap_id']
      exact Framing.flatten_chunks (by decide) buf
    · rw [List.flatMap_map]
      exact List.flatMap_eq_nil_iff.mpr fun chunk _ => if_neg (mt Channel.byte_inj.mp hc)

theorem lines_bounded (call : Call) : ∀ line ∈ call.lines, line.Bounded := by
  cases call with
  | write channel buf => exact bands_bounded
  | flush => exact fun line hline => List.mem_singleton.mp hline ▸ trivial

section Written

variable {τ : Type} {frames : τ → List Bytes} {lines : τ → List Line}

/-- What is written as bounded packets is read as them. -/
theorem readFrames_written (hframes : ∀ t, frames t = (lines t).map encode)
    (hbounded : ∀ t, ∀ line ∈ lines t, line.Bounded) (ts : List τ) {r : Reader} {rest : Bytes}
    (hr : r.flatten = (ts.flatMap frames).flatten ++ rest) :
    ∃ r', Framing.readFrames readPktLine (ts.flatMap lines).length r = .ok (ts.flatMap lines, r') ∧
      r'.flatten = rest := by
  have hall : ∀ line ∈ ts.flatMap lines, line.Bounded := fun line hline =>
    let ⟨t, _, ht⟩ := List.mem_flatMap.mp hline
    hbounded t line ht
  have hencode : ts.flatMap frames = (ts.flatMap lines).map encode := by
    rw [List.map_flatMap, List.flatMap_congr fun t _ => hframes t]
  rw [hencode, ← List.flatMap_def] at hr
  exact Framing.readFrames_write (fun line hline => readsBack (hall line hline).fits) hr

theorem written_le (hframes : ∀ t, frames t = (lines t).map encode)
    (hbounded : ∀ t, ∀ line ∈ lines t, line.Bounded) (t : τ) :
    ∀ frame ∈ frames t, frame.length ≤ maxPkt := by
  intro frame hframe
  rw [hframes] at hframe
  obtain ⟨line, hline, rfl⟩ := List.mem_map.mp hframe
  exact length_encode (hbounded t line hline)

end Written

/-- However the bytes arrive, packets are read back as they were written, the channels of a
sideband hold what was written on each, no packet is too long, and reading takes the packets it
returns and no more. -/
theorem readFrames_roundtrip :
    (∀ lines : List Line, (∀ line ∈ lines, line.Bounded) → ∀ (r : Reader) (rest : Bytes),
      r.flatten = (lines.flatMap write).flatten ++ rest →
      ∃ r', Framing.readFrames readPktLine lines.length r = .ok (lines, r') ∧
        r'.flatten = rest) ∧
    (∀ (calls : List Call) (r : Reader) (rest : Bytes),
      r.flatten = (calls.flatMap Call.frames).flatten ++ rest →
      ∃ lines r', Framing.readFrames readPktLine lines.length r = .ok (lines, r') ∧
        r'.flatten = rest ∧
        ∀ channel, lines.flatMap (Line.on channel) = calls.flatMap (Call.on channel)) ∧
    (∀ line, ∀ frame ∈ write line, frame.length ≤ maxPkt) ∧
    (∀ call, ∀ frame ∈ Call.frames call, frame.length ≤ maxPkt) ∧
    (∀ (n : ℕ) (r r' : Reader) (lines : List Line),
      Framing.readFrames readPktLine n r = .ok (lines, r') →
      ∃ frames, r.flatten = frames.flatten ++ r'.flatten ∧ List.Forall₂ Framed frames lines) ∧
    ∀ r : Reader, r.flatten = [] → ∃ r', readPktLine r = .ok (none, r') := by
  refine ⟨?_, ?_, written_le write_eq Line.parts_bounded, written_le frames_eq lines_bounded,
    ?_, ?_⟩
  · intro lines hlines r rest hr
    have hparts : lines.flatMap Line.parts = lines := by
      rw [List.flatMap_congr fun line hline => (hlines line hline).parts_eq,
        List.flatMap_singleton']
    have hread := readFrames_written write_eq Line.parts_bounded lines hr
    rwa [hparts] at hread
  · intro calls r rest hr
    obtain ⟨r', hread, hrest⟩ := readFrames_written frames_eq lines_bounded calls hr
    refine ⟨_, r', hread, hrest, fun channel => ?_⟩
    rw [List.flatMap_assoc, List.flatMap_congr fun call _ => lines_on channel call]
  · intro n r r' lines h
    exact Framing.readFrames_consumes (fun _ _ _ => readPktLine_framed)
      (fun _ _ => readPktLine_none) h
  · intro r hr
    obtain ⟨r', hread, -⟩ := readPktLine_end hr
    exact ⟨r', hread⟩

end RoundTrip

section Sections

/-- The data of the next packet; a control packet or the end stops a section. -/
def readData (r : Reader) : Except Error (Option Bytes × Reader) :=
  match readPktLine r with
  | .error e => .error e
  | .ok (some (.data b), r) => .ok (some b, r)
  | .ok (_, r) => .ok (none, r)

/-- Takes the packets of a section into account; each one is four bytes or more. -/
def foldSection {τ : Type} (step : τ → Bytes → Except Error τ) (t : τ) (r : Reader) :
    Except Error (τ × Reader) :=
  Framing.foldFrames readData step (r.flatten.length + 1) t r

/-- A packet of data. -/
def dataFrame (b : Bytes) : Bytes := encode (.data b)

theorem readsBack_data {b : Bytes} (h : (Line.data b).Fits) :
    Framing.ReadsBack readData List.flatten dataFrame b := by
  intro r rest hr
  obtain ⟨r', hread, hr'⟩ := readsBack h r rest hr
  exact ⟨r', by rw [readData, hread], hr'⟩

theorem stops_flush : Framing.Stops readData List.flatten (encode .flush) := by
  intro r rest hr
  obtain ⟨r', hread, hr'⟩ := (readsBack trivial : Framing.ReadsBack _ _ _ Line.flush) r rest hr
  exact ⟨r', by rw [readData, hread], hr'⟩

theorem stops_delim : Framing.Stops readData List.flatten (encode .delim) := by
  intro r rest hr
  obtain ⟨r', hread, hr'⟩ := (readsBack trivial : Framing.ReadsBack _ _ _ Line.delim) r rest hr
  exact ⟨r', by rw [readData, hread], hr'⟩

theorem length_le_dataFrames {bs : List Bytes} (h : ∀ b ∈ bs, (Line.data b).Fits) :
    bs.length ≤ (bs.flatMap dataFrame).length := by
  induction bs with
  | nil => exact Nat.zero_le _
  | cons b bs ih =>
    rw [List.forall_mem_cons] at h
    have hb : (dataFrame b).length = 4 + b.length := by
      rw [dataFrame, encode, List.length_append, length_pktLenHex h.1]
    have := ih h.2
    rw [List.flatMap_cons, List.length_append, List.length_cons]
    omega

theorem encodeData_eq (b : Bytes) :
    encodeData b = hexDigits 4 ((b.length + 4) % 65536) ++ b := by
  have hmask : ∀ n : ℕ, n &&& 0xf = n % 16 := fun n => Nat.and_two_pow_sub_one_eq_mod n 4
  have hdigits : ∀ n : ℕ, n / 2 ^ 12 % 16 = n % 65536 / 16 / 16 / 16 % 16 ∧
      n / 2 ^ 8 % 16 = n % 65536 / 16 / 16 % 16 ∧ n / 2 ^ 4 % 16 = n % 65536 / 16 % 16 ∧
      n % 16 = n % 65536 % 16 := by
    intro n
    omega
  obtain ⟨h12, h8, h4, h0⟩ := hdigits (b.length + 4)
  simp only [encodeData, hexDigits, hmask, Nat.shiftRight_eq_div_pow, List.nil_append,
    List.cons_append, h12, h8, h4, ← h0]

theorem encodeData_fits {b : Bytes} (h : (Line.data b).Fits) : encodeData b = dataFrame b := by
  have hlt : b.length + 4 < 65536 := h
  rw [encodeData_eq, Nat.mod_eq_of_lt hlt, dataFrame, encode, pktLenHex_eq hlt]

/-- A section is taken into account packet by packet up to where it stops. -/
theorem foldSection_stops {τ : Type} (step : τ → Bytes → Except Error τ) {bs : List Bytes}
    (h : ∀ b ∈ bs, (Line.data b).Fits) {mark : Bytes}
    (hmark : Framing.Stops readData List.flatten mark) {r : Reader} {rest : Bytes}
    (hr : r.flatten = bs.flatMap dataFrame ++ (mark ++ rest)) (t : τ) :
    ∃ r', r'.flatten = rest ∧
      foldSection step t r = (bs.foldlM step t).map fun t => (t, r') := by
  refine Framing.foldFrames_stops step (fun b hb => readsBack_data (h b hb)) hmark ?_ hr t
  have := length_le_dataFrames h
  rw [hr, List.length_append]
  omega

theorem foldSection_flush {τ : Type} (step : τ → Bytes → Except Error τ) {bs : List Bytes}
    (h : ∀ b ∈ bs, (Line.data b).Fits) {r : Reader} {rest : Bytes}
    (hr : r.flatten = bs.flatMap dataFrame ++ (encode .flush ++ rest)) (t : τ) :
    ∃ r', r'.flatten = rest ∧
      foldSection step t r = (bs.foldlM step t).map fun t => (t, r') :=
  foldSection_stops step h stops_flush hr t

/-- Data that was read fits in a packet. -/
theorem readData_fits {r r' : Reader} {b : Bytes} (h : readData r = .ok (some b, r')) :
    (Line.data b).Fits := by
  unfold readData at h
  split at h
  · cases h
  · rename_i hline
    cases h
    obtain ⟨frame, -, hdr, h4, hlen, -⟩ := readPktLine_framed hline
    have := (parsePktLen_eq_ok hlen).1
    rw [h4] at this
    exact this
  · cases h

theorem bandFrames_fits {channel : Channel} {buf : Bytes} :
    ∀ frame ∈ bandFrames channel buf, (Line.data frame).Fits := by
  intro frame hframe
  have hmem : Line.data frame ∈ bands channel buf := by
    rw [bands_eq]
    exact List.mem_map_of_mem hframe
  exact (bands_bounded _ hmem).fits

theorem flatten_writeChannel (channel : Channel) (buf : Bytes) :
    (writeChannel channel buf).flatten = (bandFrames channel buf).flatMap dataFrame := by
  rw [writeChannel_eq, bands_eq, List.map_map, List.flatMap_def]
  rfl

theorem bandFrames_on (channel : Channel) (buf : Bytes) :
    (bandFrames channel buf).flatMap (fun frame => (Line.data frame).on channel) = buf := by
  have := lines_on channel (.write channel buf)
  rw [Call.lines, bands_eq, List.flatMap_map, Call.on, if_pos rfl] at this
  exact this

end Sections

end Walgit.Pkt
