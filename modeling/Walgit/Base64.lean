import Mathlib.Data.List.GetD
import Mathlib.Data.Nat.Notation

/-!
# Base64 for URLs

The URL-safe alphabet without padding. Three bytes make four digits of six bits; a last group
of one or two bytes makes two or three, whose unused bits are zero. Decoding refuses what
encoding does not write.
-/
namespace Base64

def alphabet : List Char :=
  "ABCDEFGHIJKLMNOPQRSTUVWXYZabcdefghijklmnopqrstuvwxyz0123456789-_".toList

def symbol (n : ℕ) : Char := alphabet.getD n 'A'

def value (c : Char) : Option ℕ := alphabet.idxOf? c

def encode : List UInt8 → List Char
  | a :: b :: c :: rest =>
    symbol (a.toNat / 4) :: symbol (a.toNat % 4 * 16 + b.toNat / 16) ::
      symbol (b.toNat % 16 * 4 + c.toNat / 64) :: symbol (c.toNat % 64) :: encode rest
  | [a, b] =>
    [symbol (a.toNat / 4), symbol (a.toNat % 4 * 16 + b.toNat / 16), symbol (b.toNat % 16 * 4)]
  | [a] => [symbol (a.toNat / 4), symbol (a.toNat % 4 * 16)]
  | [] => []

def decode : List Char → Option (List UInt8)
  | w :: x :: y :: z :: rest => do
    let w ← value w
    let x ← value x
    let y ← value y
    let z ← value z
    let bytes ← decode rest
    some (.ofNat (w * 4 + x / 16) :: .ofNat (x % 16 * 16 + y / 4) :: .ofNat (y % 4 * 64 + z) ::
      bytes)
  | [w, x, y] => do
    let w ← value w
    let x ← value x
    let y ← value y
    if y % 4 = 0 then some [.ofNat (w * 4 + x / 16), .ofNat (x % 16 * 16 + y / 4)] else none
  | [w, x] => do
    let w ← value w
    let x ← value x
    if x % 16 = 0 then some [.ofNat (w * 4 + x / 16)] else none
  | [_] => none
  | [] => some []

theorem value_symbol {n : ℕ} (h : n < 64) : value (symbol n) = some n := by
  have hall : ∀ k : Fin 64, value (symbol k) = some k.val := by decide +kernel
  exact hall ⟨n, h⟩

theorem symbol_mem (n : ℕ) : symbol n ∈ alphabet := by
  by_cases h : n < alphabet.length
  · rw [symbol, List.getD_eq_getElem _ _ h]
    exact List.getElem_mem h
  · rw [symbol, List.getD_eq_default _ _ (by omega)]
    decide

theorem encode_mem {bytes : List UInt8} : ∀ c ∈ encode bytes, c ∈ alphabet := by
  induction bytes using encode.induct with
  | case1 a b c rest ih =>
    simp only [encode, List.forall_mem_cons]
    exact ⟨symbol_mem _, symbol_mem _, symbol_mem _, symbol_mem _, ih⟩
  | case2 a b => simp [encode, symbol_mem]
  | case3 a => simp [encode, symbol_mem]
  | case4 => simp [encode]

/-- What is encoded is decoded. -/
theorem decode_encode (bytes : List UInt8) : decode (encode bytes) = some bytes := by
  induction bytes using encode.induct with
  | case1 a b c rest ih =>
    have ha := a.toNat_lt
    have hb := b.toNat_lt
    have hc := c.toNat_lt
    have hfirst : a.toNat / 4 * 4 + (a.toNat % 4 * 16 + b.toNat / 16) / 16 = a.toNat := by omega
    have hsecond : (a.toNat % 4 * 16 + b.toNat / 16) % 16 * 16 +
        (b.toNat % 16 * 4 + c.toNat / 64) / 4 = b.toNat := by omega
    have hthird : (b.toNat % 16 * 4 + c.toNat / 64) % 4 * 64 + c.toNat % 64 = c.toNat := by omega
    simp only [encode, decode, value_symbol (show a.toNat / 4 < 64 by omega),
      value_symbol (show a.toNat % 4 * 16 + b.toNat / 16 < 64 by omega),
      value_symbol (show b.toNat % 16 * 4 + c.toNat / 64 < 64 by omega),
      value_symbol (show c.toNat % 64 < 64 by omega), ih, Option.bind_eq_bind, Option.bind_some,
      hfirst, hsecond, hthird, UInt8.ofNat_toNat]
  | case2 a b =>
    have ha := a.toNat_lt
    have hb := b.toNat_lt
    have hfirst : a.toNat / 4 * 4 + (a.toNat % 4 * 16 + b.toNat / 16) / 16 = a.toNat := by omega
    have hsecond : (a.toNat % 4 * 16 + b.toNat / 16) % 16 * 16 + b.toNat % 16 * 4 / 4 =
        b.toNat := by omega
    have hzero : b.toNat % 16 * 4 % 4 = 0 := by omega
    simp only [encode, decode, value_symbol (show a.toNat / 4 < 64 by omega),
      value_symbol (show a.toNat % 4 * 16 + b.toNat / 16 < 64 by omega),
      value_symbol (show b.toNat % 16 * 4 < 64 by omega), Option.bind_eq_bind, Option.bind_some,
      hfirst, hsecond, hzero, if_true, UInt8.ofNat_toNat]
  | case3 a =>
    have ha := a.toNat_lt
    have hfirst : a.toNat / 4 * 4 + a.toNat % 4 * 16 / 16 = a.toNat := by omega
    have hzero : a.toNat % 4 * 16 % 16 = 0 := by omega
    simp only [encode, decode, value_symbol (show a.toNat / 4 < 64 by omega),
      value_symbol (show a.toNat % 4 * 16 < 64 by omega), Option.bind_eq_bind, Option.bind_some,
      hfirst, hzero, if_true, UInt8.ofNat_toNat]
  | case4 => rfl

example : encode [255] = ['_', 'w'] := by decide

end Base64
