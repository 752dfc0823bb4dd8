import Mathlib.Algebra.Group.Nat.Defs
import Mathlib.Data.List.Basic
import Mathlib.Data.Nat.Notation
import Mathlib.Tactic.Common
import Mathlib.Tactic.SplitIfs

/-!
# Wire formats

What encoders and decoders of messages promise, numbers of seven bits a byte, and messages of
tagged fields in the order of their tags, which leave out a field that has its default value.
-/
namespace Wire

/-- An encoder of messages and its decoder. -/
structure Codec (α ε : Type) where
  encode : α → List UInt8
  decode : List UInt8 → Except ε α
  decode_encode : ∀ a, decode (encode a) = .ok a

/-- An encoder of lengths and its decoder, which leaves what follows. -/
structure Varint where
  encode : ℕ → List UInt8
  decode : List UInt8 → Option (ℕ × List UInt8)
  decode_encode : ∀ n < 2 ^ 64, ∀ rest, decode (encode n ++ rest) = some (n, rest)
  decode_cut : ∀ n < 2 ^ 64, ∀ k < (encode n).length, decode ((encode n).take k) = none
  consumes : ∀ bytes n rest, decode bytes = some (n, rest) →
    ∃ head, head ≠ [] ∧ bytes = head ++ rest

section Leb128

/-- At most `k` bytes of seven bits, the lowest first; every byte but the last is above 127. -/
def lebEncode : ℕ → ℕ → List UInt8
  | 0, _ => []
  | k + 1, n =>
    if n < 128 then [UInt8.ofNat n] else UInt8.ofNat (n % 128 + 128) :: lebEncode k (n / 128)

def lebDecode : ℕ → List UInt8 → Option (ℕ × List UInt8)
  | 0, _ => none
  | _ + 1, [] => none
  | k + 1, b :: rest =>
    if b.toNat < 128 then some (b.toNat, rest)
    else (lebDecode k rest).map fun p => (b.toNat % 128 + 128 * p.1, p.2)

theorem length_lebEncode (k n : ℕ) : (lebEncode k n).length ≤ k := by
  induction k generalizing n with
  | zero => exact Nat.le_refl 0
  | succ k ih =>
    simp only [lebEncode]
    split_ifs
    · exact Nat.succ_le_succ (Nat.zero_le k)
    · exact Nat.succ_le_succ (ih (n / 128))

theorem toNat_continued (n : ℕ) : (UInt8.ofNat (n % 128 + 128)).toNat = n % 128 + 128 := by
  rw [UInt8.toNat_ofNat']
  omega

theorem lebDecode_lebEncode {k n m : ℕ} (h : n < 128 ^ (k + 1))
    (hm : (lebEncode (k + 1) n).length ≤ m) (rest : List UInt8) :
    lebDecode m (lebEncode (k + 1) n ++ rest) = some (n, rest) := by
  induction k generalizing n m with
  | zero =>
    have hn : n < 128 := by simpa using h
    simp only [lebEncode, if_pos hn] at hm ⊢
    cases m with
    | zero => cases hm
    | succ m =>
      have hbyte : (UInt8.ofNat n).toNat = n := by
        rw [UInt8.toNat_ofNat']
        omega
      simp [lebDecode, hbyte, hn]
  | succ k ih =>
    rw [lebEncode] at hm ⊢
    split_ifs at hm ⊢ with hn
    · cases m with
      | zero => cases hm
      | succ m =>
        have hbyte : (UInt8.ofNat n).toNat = n := by
          rw [UInt8.toNat_ofNat']
          omega
        simp [lebDecode, hbyte, hn]
    · cases m with
      | zero => cases hm
      | succ m =>
        have hdiv : n / 128 < 128 ^ (k + 1) := by
          rw [Nat.pow_succ] at h
          exact Nat.div_lt_of_lt_mul (by omega)
        rw [List.cons_append, lebDecode, toNat_continued, if_neg (by omega),
          ih hdiv (Nat.le_of_succ_le_succ hm)]
        simp only [Option.map_some, Option.some.injEq, Prod.mk.injEq, and_true]
        omega

/-- A number that is cut off is not read. -/
theorem lebDecode_cut {k n m i : ℕ} (h : i < (lebEncode k n).length) :
    lebDecode m ((lebEncode k n).take i) = none := by
  induction k generalizing n m i with
  | zero => cases h
  | succ k ih =>
    cases m with
    | zero => rfl
    | succ m =>
      rw [lebEncode] at h ⊢
      split_ifs at h ⊢ with hn
      · obtain rfl : i = 0 := by simpa using h
        rfl
      · cases i with
        | zero => rfl
        | succ i =>
          rw [List.take_succ_cons, lebDecode, toNat_continued, if_neg (by omega),
            ih (Nat.lt_of_succ_lt_succ h), Option.map_none]

theorem lebDecode_consumes {m n : ℕ} {bytes rest : List UInt8}
    (h : lebDecode m bytes = some (n, rest)) : ∃ head, head ≠ [] ∧ bytes = head ++ rest := by
  induction m generalizing n bytes with
  | zero => cases h
  | succ m ih =>
    cases bytes with
    | nil => cases h
    | cons b bytes =>
      rw [lebDecode] at h
      split_ifs at h
      · simp only [Option.some.injEq, Prod.mk.injEq] at h
        exact ⟨[b], by simp, by rw [h.2]; rfl⟩
      · obtain ⟨p, hp, heq⟩ := Option.map_eq_some_iff.mp h
        simp only [Prod.mk.injEq] at heq
        obtain ⟨head, -, hbytes⟩ := ih (n := p.1) (by rw [hp, ← heq.2])
        exact ⟨b :: head, by simp, by rw [hbytes]; rfl⟩

/-- Numbers of 64 bits in at most ten bytes. -/
def leb128 : Varint where
  encode := lebEncode 10
  decode bytes := (lebDecode 10 bytes).filter fun p => p.1 < 2 ^ 64
  decode_encode n hn rest := by
    have hpow : n < 128 ^ (9 + 1) := Nat.lt_trans hn (by decide)
    rw [lebDecode_lebEncode hpow (length_lebEncode 10 n), Option.filter_some, if_pos (by simpa)]
  decode_cut n _ k hk := by rw [lebDecode_cut hk, Option.filter_none]
  consumes bytes n rest h := by
    rw [Option.filter_eq_some_iff] at h
    exact lebDecode_consumes h.1

/-- Numbers of any size. -/
def writeNat (n : ℕ) : List UInt8 := lebEncode (n + 1) n

def readNat (bytes : List UInt8) : Option (ℕ × List UInt8) := lebDecode bytes.length bytes

theorem readNat_writeNat (n : ℕ) (rest : List UInt8) :
    readNat (writeNat n ++ rest) = some (n, rest) :=
  lebDecode_lebEncode (Nat.lt_of_lt_of_le (Nat.lt_pow_self (by decide))
    (Nat.pow_le_pow_right (by decide) (Nat.le_succ n)))
    (List.length_append ▸ Nat.le_add_right _ _) rest

/-- Bytes after their length. -/
def writeBytes (bytes : List UInt8) : List UInt8 := writeNat bytes.length ++ bytes

def readBytes (bytes : List UInt8) : Option (List UInt8 × List UInt8) := do
  let (n, rest) ← readNat bytes
  if n ≤ rest.length then some (rest.take n, rest.drop n) else none

theorem readBytes_writeBytes (bytes rest : List UInt8) :
    readBytes (writeBytes bytes ++ rest) = some (bytes, rest) := by
  simp [readBytes, writeBytes, readNat_writeNat]

end Leb128

/-- Values that are read off the bytes they start. -/
structure Scalar (α : Type) where
  write : α → List UInt8
  read : List UInt8 → Option (α × List UInt8)
  read_write : ∀ a rest, read (write a ++ rest) = some (a, rest)

/-- Fields with tags from `lo` to `hi`; what follows them has a higher tag. -/
structure Fields (α : Type) (lo hi : ℕ) where
  write : α → List UInt8
  read : List UInt8 → Option (α × List UInt8)
  head : ∀ a, ∀ b ∈ (write a).head?, lo ≤ b.toNat
  read_write : ∀ a rest, (∀ b ∈ rest.head?, hi < b.toNat) → read (write a ++ rest) = some (a, rest)

namespace Scalar

variable {α β : Type}

def nat : Scalar ℕ := ⟨writeNat, readNat, readNat_writeNat⟩

def bytes : Scalar (List UInt8) := ⟨writeBytes, readBytes, readBytes_writeBytes⟩

/-- Values that stand for others. -/
def via (s : Scalar α) (f : α → β) (g : β → α) (h : ∀ b, f (g b) = b) : Scalar β where
  write b := s.write (g b)
  read bytes := (s.read bytes).map fun p => (f p.1, p.2)
  read_write b rest := by rw [s.read_write, Option.map_some, h]

/-- A message inside a message. -/
def message {lo hi : ℕ} (fields : Fields α lo hi) : Scalar α where
  write a := writeBytes (fields.write a)
  read bytes := do
    let (body, rest) ← readBytes bytes
    let (a, _) ← fields.read body
    some (a, rest)
  read_write a rest := by
    have hread := fields.read_write a [] (by simp)
    rw [List.append_nil] at hread
    simp [readBytes_writeBytes, hread]

end Scalar

namespace Fields

variable {α β : Type} {lo mid mid' hi : ℕ}

/-- A field that is left out when it has the default value. -/
def plain [DecidableEq α] (s : Scalar α) (default : α) (tag : UInt8) :
    Fields α tag.toNat tag.toNat where
  write a := if a = default then [] else tag :: s.write a
  read
    | [] => some (default, [])
    | b :: rest => if b = tag then s.read rest else some (default, b :: rest)
  head a b hb := by
    split_ifs at hb
    · cases hb
    · rw [List.head?_cons, Option.mem_some_iff] at hb
      exact hb ▸ Nat.le_refl _
  read_write a rest hrest := by
    split_ifs with ha
    · cases rest with
      | nil => rw [ha]; rfl
      | cons b rest =>
        have hb : b ≠ tag := by
          rintro rfl
          exact absurd (hrest b rfl) (Nat.lt_irrefl _)
        simp [ha, hb]
    · simp [s.read_write]

/-- A field that may be absent. -/
def optional (s : Scalar α) (tag : UInt8) : Fields (Option α) tag.toNat tag.toNat where
  write
    | none => []
    | some a => tag :: s.write a
  read
    | [] => some (none, [])
    | b :: rest =>
      if b = tag then (s.read rest).map fun p => (some p.1, p.2) else some (none, b :: rest)
  head a b hb := by
    cases a with
    | none => cases hb
    | some a =>
      rw [List.head?_cons, Option.mem_some_iff] at hb
      exact hb ▸ Nat.le_refl _
  read_write a rest hrest := by
    cases a with
    | none =>
      cases rest with
      | nil => rfl
      | cons b rest =>
        have hb : b ≠ tag := by
          rintro rfl
          exact absurd (hrest b rfl) (Nat.lt_irrefl _)
        simp [hb]
    | some a => simp [s.read_write]

/-- Reads a field as often as it is there. -/
def readMany (s : Scalar α) (tag : UInt8) : ℕ → List UInt8 → Option (List α × List UInt8)
  | 0, bytes => some ([], bytes)
  | _ + 1, [] => some ([], [])
  | fuel + 1, b :: rest =>
    if b = tag then do
      let (a, rest) ← s.read rest
      let (as, rest) ← readMany s tag fuel rest
      some (a :: as, rest)
    else some ([], b :: rest)

theorem readMany_write (s : Scalar α) (tag : UInt8) (as : List α) {rest : List UInt8}
    (hrest : ∀ b ∈ rest.head?, tag.toNat < b.toNat) {fuel : ℕ} (h : as.length < fuel) :
    readMany s tag fuel (as.flatMap (fun a => tag :: s.write a) ++ rest) = some (as, rest) := by
  induction as generalizing fuel with
  | nil =>
    cases fuel with
    | zero => cases h
    | succ fuel =>
      cases rest with
      | nil => rfl
      | cons b rest =>
        have hb : b ≠ tag := by
          rintro rfl
          exact absurd (hrest b rfl) (Nat.lt_irrefl _)
        simp [readMany, hb]
  | cons a as ih =>
    cases fuel with
    | zero => cases h
    | succ fuel =>
      simp [readMany, s.read_write, ih (Nat.lt_of_succ_lt_succ h)]

theorem length_le_writeMany (s : Scalar α) (tag : UInt8) (as : List α) :
    as.length ≤ (as.flatMap fun a => tag :: s.write a).length := by
  induction as with
  | nil => exact Nat.le_refl 0
  | cons a as ih =>
    simp only [List.flatMap_cons, List.length_append, List.length_cons]
    omega

/-- A repeated field. -/
def many (s : Scalar α) (tag : UInt8) : Fields (List α) tag.toNat tag.toNat where
  write as := as.flatMap fun a => tag :: s.write a
  read bytes := readMany s tag (bytes.length + 1) bytes
  head as b hb := by
    cases as with
    | nil => cases hb
    | cons a as =>
      rw [List.flatMap_cons, List.cons_append, List.head?_cons, Option.mem_some_iff] at hb
      exact hb ▸ Nat.le_refl _
  read_write as rest hrest := by
    refine readMany_write s tag as hrest ?_
    have := length_le_writeMany s tag as
    rw [List.length_append]
    omega

/-- Fields after others with lower tags. -/
def pair (f : Fields α lo mid) (g : Fields β mid' hi) (hlo : lo ≤ mid') (hmid : mid < mid')
    (hhi : mid ≤ hi) : Fields (α × β) lo hi where
  write p := f.write p.1 ++ g.write p.2
  read bytes := do
    let (a, rest) ← f.read bytes
    let (b, rest) ← g.read rest
    some ((a, b), rest)
  head p b hb := by
    rw [List.head?_append] at hb
    cases hf : (f.write p.1).head? with
    | some b' =>
      rw [hf, Option.some_or, Option.mem_some_iff] at hb
      exact hb ▸ f.head p.1 b' hf
    | none =>
      rw [hf, Option.none_or] at hb
      exact Nat.le_trans hlo (g.head p.2 b hb)
  read_write p rest hrest := by
    have hnext : ∀ b ∈ (g.write p.2 ++ rest).head?, mid < b.toNat := by
      intro b hb
      rw [List.head?_append] at hb
      cases hg : (g.write p.2).head? with
      | some b' =>
        rw [hg, Option.some_or, Option.mem_some_iff] at hb
        exact hb ▸ Nat.lt_of_lt_of_le hmid (g.head p.2 b' hg)
      | none =>
        rw [hg, Option.none_or] at hb
        exact Nat.lt_of_le_of_lt hhi (hrest b hb)
    rw [List.append_assoc]
    simp [f.read_write _ _ hnext, g.read_write _ _ hrest]

/-- Fields of a record. -/
def via (fields : Fields α lo hi) (f : α → β) (g : β → α) (h : ∀ b, f (g b) = b) :
    Fields β lo hi where
  write b := fields.write (g b)
  read bytes := (fields.read bytes).map fun p => (f p.1, p.2)
  head b := fields.head (g b)
  read_write b rest hrest := by rw [fields.read_write _ _ hrest, Option.map_some, h]

/-- A message of such fields. -/
def codec {ε : Type} (fields : Fields α lo hi) (invalid : ε) : Codec α ε where
  encode := fields.write
  decode bytes :=
    match fields.read bytes with
    | some (a, []) => .ok a
    | _ => .error invalid
  decode_encode a := by
    have hread := fields.read_write a [] (by simp)
    rw [List.append_nil] at hread
    rw [hread]

end Fields

end Wire
