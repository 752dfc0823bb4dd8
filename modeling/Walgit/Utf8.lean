import Mathlib.Data.List.Basic
import Mathlib.Data.List.DropRight
import Mathlib.Data.Nat.Notation
import Mathlib.Tactic.SplitIfs

/-!
# UTF-8

The bytes of a text, and the text of any bytes: what is not the encoding of a character becomes
a replacement character, one for each longest part that could have begun one.
-/
namespace Utf8

def encode (text : List Char) : List UInt8 := text.flatMap String.utf8EncodeChar

def continues (b : UInt8) : Bool := decide (128 ≤ b ∧ b ≤ 191)

/-- `c` can follow `b` where `b` begins a character of three or four bytes. -/
def secondFits (b c : UInt8) : Bool :=
  if b = 0xE0 then decide (160 ≤ c ∧ c ≤ 191)
  else if b = 0xED then decide (128 ≤ c ∧ c ≤ 159)
  else if b = 0xF0 then decide (144 ≤ c ∧ c ≤ 191)
  else if b = 0xF4 then decide (128 ≤ c ∧ c ≤ 143)
  else decide (0xE1 ≤ b ∧ b ≤ 0xF3) && continues c

/-- How many bytes that begin no character are replaced together. -/
def invalidLength : List UInt8 → ℕ
  | b :: c :: rest =>
    if secondFits b c then
      match rest with
      | d :: _ => if 0xF0 ≤ b ∧ continues d then 3 else 2
      | [] => 2
    else 1
  | _ => 1

def decodeFor : ℕ → List UInt8 → List Char
  | 0, _ => []
  | _ + 1, [] => []
  | n + 1, bytes =>
    match bytes.toByteArray.utf8DecodeChar? 0 with
    | some c => c :: decodeFor n (bytes.drop c.utf8Size)
    | none => '\uFFFD' :: decodeFor n (bytes.drop (invalidLength bytes))

/-- Every character and every replacement takes a byte. -/
def decode (bytes : List UInt8) : List Char := decodeFor bytes.length bytes

section Decoding

theorem invalidLength_pos (bytes : List UInt8) : 0 < invalidLength bytes := by
  unfold invalidLength
  split
  · split_ifs
    · split
      · split_ifs <;> decide
      · decide
    · decide
  · decide

/-- More fuel than bytes changes nothing. -/
theorem decodeFor_eq {n : ℕ} {bytes : List UInt8} (h : bytes.length ≤ n) :
    decodeFor n bytes = decode bytes := by
  suffices ∀ n m (bytes : List UInt8), bytes.length ≤ n → bytes.length ≤ m →
      decodeFor n bytes = decodeFor m bytes from this n _ bytes h (Nat.le_refl _)
  intro n
  induction n with
  | zero =>
    intro m bytes hn _
    obtain rfl : bytes = [] := List.length_eq_zero_iff.mp (by omega)
    cases m <;> rfl
  | succ n ih =>
    intro m bytes hn hm
    cases bytes with
    | nil => cases m <;> rfl
    | cons b rest =>
      obtain ⟨m, rfl⟩ : ∃ k, m = k + 1 := ⟨m - 1, by rw [List.length_cons] at hm; omega⟩
      rw [List.length_cons] at hn hm
      have hdrop : ∀ k, 0 < k → ((b :: rest).drop k).length ≤ rest.length := by
        intro k hk
        rw [List.length_drop, List.length_cons]
        omega
      rw [decodeFor, decodeFor]
      · split
        · rename_i c _
          have := hdrop c.utf8Size c.utf8Size_pos
          rw [ih m _ (by omega) (by omega)]
        · have := hdrop (invalidLength (b :: rest)) (invalidLength_pos _)
          rw [ih m _ (by omega) (by omega)]
      · exact List.cons_ne_nil _ _
      · exact List.cons_ne_nil _ _

/-- What follows a text is decoded apart from it. -/
theorem decode_append (text : List Char) (rest : List UInt8) :
    decode (encode text ++ rest) = text ++ decode rest := by
  induction text with
  | nil => rfl
  | cons c text ih =>
    have hsize : (String.utf8EncodeChar c).length = c.utf8Size := String.length_utf8EncodeChar c
    have hpos : 0 < c.utf8Size := c.utf8Size_pos
    have hbytes : encode (c :: text) ++ rest =
        String.utf8EncodeChar c ++ (encode text ++ rest) := by
      rw [encode, List.flatMap_cons, List.append_assoc]
      rfl
    obtain ⟨m, hm⟩ : ∃ m, (String.utf8EncodeChar c ++ (encode text ++ rest)).length = m + 1 :=
      ⟨_, (Nat.sub_add_cancel (by rw [List.length_append]; omega)).symm⟩
    have hchar : (String.utf8EncodeChar c ++ (encode text ++ rest)).toByteArray.utf8DecodeChar? 0 =
        some c := by
      rw [List.toByteArray_append]
      exact ByteArray.utf8DecodeChar?_utf8EncodeChar_append
    rw [hbytes, decode, hm, decodeFor, hchar]
    · dsimp only
      rw [← hsize, List.drop_left, decodeFor_eq, ih, List.cons_append]
      rw [List.length_append] at hm
      omega
    · intro hnil
      rw [List.append_eq_nil_iff] at hnil
      rw [hnil.1] at hsize
      exact absurd hsize (by rw [List.length_nil]; omega)

/-- A text is read back from its bytes. -/
theorem decode_encode (text : List Char) : decode (encode text) = text := by
  have happend := decode_append text []
  have hnil : decode [] = [] := rfl
  rwa [hnil, List.append_nil, List.append_nil] at happend

theorem encode_append (s t : List Char) : encode (s ++ t) = encode s ++ encode t :=
  List.flatMap_append

theorem encode_injective {s t : List Char} (h : encode s = encode t) : s = t := by
  rw [← decode_encode s, h, decode_encode]

end Decoding

section Ascii

theorem encodeChar_ascii {c : Char} (h : c.toNat < 128) :
    String.utf8EncodeChar c = [UInt8.ofNat c.toNat] :=
  if_pos (Nat.le_of_lt_succ h)

theorem le_of_mem_encodeChar {c : Char} (h : 128 ≤ c.toNat) :
    ∀ b ∈ String.utf8EncodeChar c, 128 ≤ b.toNat := by
  have hbyte : ∀ {n}, 128 ≤ n → n < 256 → 128 ≤ (UInt8.ofNat n).toNat := by
    intro n hn hlt
    rwa [UInt8.toNat_ofNat', Nat.mod_eq_of_lt hlt]
  have hc : ¬ c.val.toNat ≤ 0x7f := by
    change ¬ c.toNat ≤ 127
    omega
  rw [String.utf8EncodeChar, if_neg hc]
  split_ifs
  all_goals
    simp only [List.forall_mem_cons, List.not_mem_nil, false_implies, implies_true, and_true]
  · exact ⟨hbyte (by omega) (by omega), hbyte (by omega) (by omega)⟩
  · exact ⟨hbyte (by omega) (by omega), hbyte (by omega) (by omega), hbyte (by omega) (by omega)⟩
  · exact ⟨hbyte (by omega) (by omega), hbyte (by omega) (by omega), hbyte (by omega) (by omega),
      hbyte (by omega) (by omega)⟩

/-- The byte of a character of ASCII is found in no other one's. -/
theorem mem_encodeChar {c d : Char} (hd : d.toNat < 128) :
    UInt8.ofNat d.toNat ∈ String.utf8EncodeChar c ↔ c = d := by
  by_cases hc : c.toNat < 128
  · rw [encodeChar_ascii hc, List.mem_singleton]
    constructor
    · intro h
      have hnat := congrArg UInt8.toNat h
      rw [UInt8.toNat_ofNat', UInt8.toNat_ofNat', Nat.mod_eq_of_lt (by omega),
        Nat.mod_eq_of_lt (by omega)] at hnat
      exact (Char.toNat_inj.mp hnat).symm
    · rintro rfl
      rfl
  · refine iff_of_false (fun h => ?_) fun h => hc (h ▸ hd)
    have := le_of_mem_encodeChar (by omega) _ h
    rw [UInt8.toNat_ofNat', Nat.mod_eq_of_lt (by omega)] at this
    omega

theorem mem_encode {d : Char} (hd : d.toNat < 128) {text : List Char} :
    UInt8.ofNat d.toNat ∈ encode text ↔ d ∈ text := by
  rw [encode, List.mem_flatMap]
  constructor
  · rintro ⟨c, hc, hmem⟩
    rwa [← (mem_encodeChar hd).mp hmem]
  · exact fun h => ⟨d, h, (mem_encodeChar hd).mpr rfl⟩

theorem length_encode_ascii {text : List Char} (h : ∀ c ∈ text, c.toNat < 128) :
    (encode text).length = text.length := by
  induction text with
  | nil => rfl
  | cons c text ih =>
    rw [List.forall_mem_cons] at h
    rw [encode, List.flatMap_cons, encodeChar_ascii h.1, ← encode, List.length_append, ih h.2,
      List.length_singleton, List.length_cons, Nat.add_comm]

theorem utf8ByteSize_ofList (text : List Char) :
    (String.ofList text).utf8ByteSize = (encode text).length := by
  rw [← String.size_toByteArray, String.toByteArray_ofList, List.utf8Encode, List.size_toByteArray]
  rfl

end Ascii

section Invalid

theorem encode_cons (c : Char) (text : List Char) :
    encode (c :: text) = String.utf8EncodeChar c ++ encode text :=
  List.flatMap_cons

theorem decode_cons (c : Char) (rest : List UInt8) :
    decode (String.utf8EncodeChar c ++ rest) = c :: decode rest := by
  have h := decode_append [c] rest
  rwa [encode_cons, encode, List.flatMap_nil, List.append_nil, List.singleton_append] at h

/-- Bytes that begin with a character. -/
def Starts (bytes : List UInt8) : Prop := ∃ c rest, bytes = String.utf8EncodeChar c ++ rest

theorem starts_of_char {bytes : List UInt8} {c : Char}
    (h : bytes.toByteArray.utf8DecodeChar? 0 = some c) : Starts bytes := by
  obtain ⟨l, hl⟩ := ByteArray.exists_of_utf8DecodeChar?_eq_some h
  refine ⟨c, l.data.toList, List.toByteArray_inj.mp ?_⟩
  rw [hl, List.toByteArray_append]
  congr 1
  ext1
  rw [List.data_toByteArray, Array.toArray_toList]

theorem decode_invalid {bytes : List UInt8} (hne : bytes ≠ []) (h : ¬ Starts bytes) :
    decode bytes = '\uFFFD' :: decode (bytes.drop (invalidLength bytes)) := by
  have hchar : bytes.toByteArray.utf8DecodeChar? 0 = none := by
    cases hc : bytes.toByteArray.utf8DecodeChar? 0 with
    | none => rfl
    | some c => exact absurd (starts_of_char hc) h
  obtain ⟨m, hm⟩ : ∃ m, bytes.length = m + 1 :=
    ⟨_, (Nat.sub_add_cancel (List.length_pos_iff.mpr hne)).symm⟩
  have hpos := invalidLength_pos bytes
  rw [decode, hm, decodeFor, hchar]
  · dsimp only
    rw [decodeFor_eq]
    rw [List.length_drop]
    omega
  · exact hne

/-- Bytes are read character by character, and what begins none is passed over. -/
@[elab_as_elim]
theorem decode_induction {P : List UInt8 → Prop} (nil : P [])
    (char : ∀ c rest, P rest → P (String.utf8EncodeChar c ++ rest))
    (invalid : ∀ bytes, bytes ≠ [] → ¬ Starts bytes → P (bytes.drop (invalidLength bytes)) →
      P bytes) (bytes : List UInt8) : P bytes := by
  suffices ∀ n (bytes : List UInt8), bytes.length ≤ n → P bytes from this _ _ (Nat.le_refl _)
  intro n
  induction n with
  | zero =>
    intro bytes h
    rwa [List.length_eq_zero_iff.mp (Nat.le_zero.mp h)]
  | succ n ih =>
    intro bytes h
    by_cases hne : bytes = []
    · rwa [hne]
    · have hlength : 0 < bytes.length := List.length_pos_iff.mpr hne
      by_cases hstarts : Starts bytes
      · obtain ⟨c, rest, rfl⟩ := hstarts
        have hc : 0 < (String.utf8EncodeChar c).length := by
          rw [String.length_utf8EncodeChar]
          exact c.utf8Size_pos
        rw [List.length_append] at h
        exact char c rest (ih rest (by omega))
      · have hpos := invalidLength_pos bytes
        refine invalid bytes hne hstarts (ih _ ?_)
        rw [List.length_drop]
        omega

theorem invalidLength_le {bytes : List UInt8} (h : bytes ≠ []) :
    invalidLength bytes ≤ bytes.length := by
  unfold invalidLength
  split
  · split_ifs
    · split
      · split_ifs <;> simp
      · simp
    · simp
  · exact List.length_pos_iff.mpr h

/-- A byte of ASCII continues nothing. -/
theorem invalidLength_concat {bytes : List UInt8} (hne : bytes ≠ []) {b : UInt8}
    (hb : b.toNat < 128) : invalidLength (bytes ++ [b]) = invalidLength bytes := by
  have hcontinues : continues b = false := by
    rw [continues, decide_eq_false_iff_not, UInt8.le_iff_toNat_le]
    exact fun h => Nat.lt_irrefl _ (Nat.lt_of_lt_of_le hb h.1)
  have hsecond : ∀ a, secondFits a b = false := by
    intro a
    have hrange : ∀ lo hi : UInt8, 128 ≤ lo.toNat → decide (lo ≤ b ∧ b ≤ hi) = false := by
      intro lo hi hlo
      rw [decide_eq_false_iff_not, UInt8.le_iff_toNat_le]
      exact fun h => Nat.lt_irrefl _ (Nat.lt_of_lt_of_le hb (Nat.le_trans hlo h.1))
    rw [secondFits, hcontinues, Bool.and_false, hrange 160 _ (by decide),
      hrange 128 _ (by decide), hrange 144 _ (by decide), hrange 128 _ (by decide)]
    split_ifs <;> rfl
  match bytes with
  | [] => exact absurd rfl hne
  | [a] => simp [invalidLength, hsecond]
  | [a, c] => simp [invalidLength, hcontinues]
  | a :: c :: d :: rest => rfl

theorem starts_concat {bytes : List UInt8} (hne : bytes ≠ []) {c : Char} (hc : c.toNat < 128) :
    Starts (bytes ++ [UInt8.ofNat c.toNat]) ↔ Starts bytes := by
  constructor
  · rintro ⟨d, rest, h⟩
    rcases List.eq_nil_or_concat rest with rfl | ⟨rest, b, rfl⟩
    · rw [List.append_nil] at h
      obtain rfl : d = c := (mem_encodeChar hc).mp (h ▸ List.mem_append_right _ (by simp))
      rw [encodeChar_ascii hc] at h
      exact absurd (by simpa using h) hne
    · rw [List.concat_eq_append, ← List.append_assoc] at h
      exact ⟨d, rest, (List.append_inj' h rfl).1⟩
  · rintro ⟨d, rest, rfl⟩
    exact ⟨d, _, List.append_assoc _ _ _⟩

/-- A character of ASCII at the end is read apart from what comes before it. -/
theorem decode_concat (bytes : List UInt8) {c : Char} (hc : c.toNat < 128) :
    decode (bytes ++ [UInt8.ofNat c.toNat]) = decode bytes ++ [c] := by
  induction bytes using decode_induction with
  | nil =>
    have h := decode_encode [c]
    rwa [encode_cons, encodeChar_ascii hc] at h
  | char d rest ih => rw [List.append_assoc, decode_cons, ih, decode_cons, List.cons_append]
  | invalid bytes hne hstarts ih =>
    have hb : (UInt8.ofNat c.toNat).toNat < 128 := by
      rwa [UInt8.toNat_ofNat', Nat.mod_eq_of_lt (by omega)]
    have hne' : bytes ++ [UInt8.ofNat c.toNat] ≠ [] := List.append_ne_nil_of_left_ne_nil hne _
    rw [decode_invalid hne' (mt (starts_concat hne hc).mp hstarts), invalidLength_concat hne hb,
      List.drop_append_of_le_length (invalidLength_le hne), ih, decode_invalid hne hstarts,
      List.cons_append]

theorem decode_eq_nil {bytes : List UInt8} : decode bytes = [] ↔ bytes = [] := by
  constructor
  · intro h
    by_contra hne
    by_cases hstarts : Starts bytes
    · obtain ⟨c, rest, rfl⟩ := hstarts
      rw [decode_cons] at h
      cases h
    · rw [decode_invalid hne hstarts] at h
      cases h
  · rintro rfl
    rfl

/-- A text without a replacement character was read from its own bytes. -/
theorem eq_of_decode {text : List Char} (htext : '\uFFFD' ∉ text) {bytes : List UInt8}
    {rest : List Char} (h : decode bytes = text ++ rest) :
    ∃ tail, bytes = encode text ++ tail ∧ decode tail = rest := by
  induction text generalizing bytes with
  | nil => exact ⟨bytes, rfl, h⟩
  | cons c text ih =>
    rw [List.mem_cons, not_or] at htext
    rw [List.cons_append] at h
    have hne : bytes ≠ [] := fun hnil => by
      rw [hnil] at h
      cases h
    by_cases hstarts : Starts bytes
    · obtain ⟨d, tail, rfl⟩ := hstarts
      rw [decode_cons, List.cons.injEq] at h
      obtain ⟨rfl, htail⟩ := h
      obtain ⟨tail, rfl, hrest⟩ := ih htext.2 htail
      exact ⟨tail, by rw [encode_cons, List.append_assoc], hrest⟩
    · rw [decode_invalid hne hstarts, List.cons.injEq] at h
      exact absurd h.1 htext.1

end Invalid

section Trimming

theorem getLast?_decode {c : Char} (hc : c.toNat < 128) {bytes : List UInt8}
    (h : (decode bytes).getLast? = some c) : bytes.getLast? = some (UInt8.ofNat c.toNat) := by
  induction bytes using decode_induction with
  | nil => cases h
  | char d rest ih =>
    rw [decode_cons] at h
    by_cases hrest : rest = []
    · subst hrest
      obtain rfl : d = c := Option.some.inj h
      rw [encodeChar_ascii hc]
      rfl
    · rw [List.getLast?_cons_of_ne_nil (mt decode_eq_nil.mp hrest)] at h
      rw [List.getLast?_append_of_ne_nil _ hrest]
      exact ih h
  | invalid bytes hne hstarts ih =>
    rw [decode_invalid hne hstarts] at h
    by_cases hrest : bytes.drop (invalidLength bytes) = []
    · rw [hrest] at h
      obtain rfl : '\uFFFD' = c := Option.some.inj h
      exact absurd hc (by decide)
    · rw [List.getLast?_cons_of_ne_nil (mt decode_eq_nil.mp hrest)] at h
      have := ih h
      rwa [List.getLast?_drop, if_neg fun hle => hrest (List.drop_eq_nil_iff.mpr hle)] at this

/-- Trailing bytes of a character of ASCII are that character at the end of the text. -/
theorem decode_rdropWhile {c : Char} (hc : c.toNat < 128) (bytes : List UInt8) :
    decode (bytes.rdropWhile (· = UInt8.ofNat c.toNat)) = (decode bytes).rdropWhile (· = c) := by
  induction bytes using List.reverseRecOn with
  | nil => rfl
  | append_singleton bytes b ih =>
    by_cases hb : b = UInt8.ofNat c.toNat
    · rw [hb, List.rdropWhile_concat_pos _ _ _ (by simp), ih, decode_concat bytes hc,
        List.rdropWhile_concat_pos _ _ _ (by simp)]
    · rw [List.rdropWhile_concat_neg _ _ _ (by simpa using hb), eq_comm,
        List.rdropWhile_eq_self_iff]
      intro hl hlast
      have hsome := getLast?_decode hc
        ((List.getLast?_eq_some_getLast hl).trans (congrArg some (by simpa using hlast)))
      rw [List.getLast?_concat] at hsome
      exact hb (Option.some.inj hsome)

theorem rdropWhile_encode {c : Char} (hc : c.toNat < 128) (text : List Char) :
    (encode text).rdropWhile (· = UInt8.ofNat c.toNat) = encode (text.rdropWhile (· = c)) := by
  induction text using List.reverseRecOn with
  | nil => rfl
  | append_singleton text d ih =>
    have hd : encode [d] = String.utf8EncodeChar d := by
      rw [encode_cons, encode, List.flatMap_nil, List.append_nil]
    by_cases heq : d = c
    · rw [List.rdropWhile_concat_pos _ _ _ (by simpa using heq), ← ih, encode_append, hd, heq,
        encodeChar_ascii hc, List.rdropWhile_concat_pos _ _ _ (by simp)]
    · rw [List.rdropWhile_concat_neg _ _ _ (by simpa using heq), List.rdropWhile_eq_self_iff]
      intro hl hlast
      have hne : encode [d] ≠ [] := fun hnil => by
        have hlength := congrArg List.length (hd.symm.trans hnil)
        rw [String.length_utf8EncodeChar] at hlength
        exact absurd hlength (Nat.ne_of_gt d.utf8Size_pos)
      have hmem : (encode (text ++ [d])).getLast hl ∈ String.utf8EncodeChar d := by
        simp only [encode_append, ← hd]
        rw [List.getLast_append_of_ne_nil _ hne]
        exact List.getLast_mem hne
      rw [of_decide_eq_true hlast] at hmem
      exact heq ((mem_encodeChar hc).mp hmem)

end Trimming

end Utf8
