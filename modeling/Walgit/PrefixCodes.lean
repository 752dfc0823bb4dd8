import Mathlib.Algebra.Group.Nat.Defs
import Mathlib.Data.List.Basic
import Mathlib.Data.Nat.Notation
import Mathlib.Tactic.Common

/-!
# Prefix codes

Codes whose values can be told apart whatever follows them, as those of a hash over framed
fields have to be: numbers of a fixed width, and lists after their length.
-/
namespace PrefixCodes

variable {α β σ : Type}

/-- The code of a value that fits delimits itself: what follows it can be anything. -/
def Delimits (fits : α → Prop) (code : α → List σ) : Prop :=
  ∀ a b, fits a → fits b → ∀ rest rest', code a ++ rest = code b ++ rest' → a = b ∧ rest = rest'

section Codes

variable {fits fits' : α → Prop} {fitsβ : β → Prop} {code : α → List σ} {codeβ : β → List σ}

theorem Delimits.mono (h : Delimits fits code) (himp : ∀ a, fits' a → fits a) :
    Delimits fits' code :=
  fun a b ha hb => h a b (himp a ha) (himp b hb)

theorem Delimits.comap (h : Delimits fits code) {f : β → α} (hf : Function.Injective f) :
    Delimits (fun b => fits (f b)) fun b => code (f b) := by
  intro a b ha hb rest rest' heq
  obtain ⟨hab, hrest⟩ := h (f a) (f b) ha hb rest rest' heq
  exact ⟨hf hab, hrest⟩

theorem Delimits.injOn (h : Delimits fits code) {a b : α} (ha : fits a) (hb : fits b)
    (heq : code a = code b) : a = b :=
  (h a b ha hb [] [] (by rw [heq])).1

theorem Delimits.pair (h : Delimits fits code) (hβ : Delimits fitsβ codeβ) :
    Delimits (fun p : α × β => fits p.1 ∧ fitsβ p.2) fun p => code p.1 ++ codeβ p.2 := by
  rintro ⟨a, c⟩ ⟨b, d⟩ ⟨ha, hc⟩ ⟨hb, hd⟩ rest rest' heq
  simp only [List.append_assoc] at heq
  obtain ⟨rfl, htail⟩ := h a b ha hb _ _ heq
  obtain ⟨rfl, hrest⟩ := hβ c d hc hd _ _ htail
  exact ⟨rfl, hrest⟩

/-- Lists of one length are told apart element by element. -/
theorem Delimits.flatMap (h : Delimits fits code) {l m : List α} (hl : ∀ a ∈ l, fits a)
    (hm : ∀ a ∈ m, fits a) (hlength : l.length = m.length) {rest rest' : List σ}
    (heq : l.flatMap code ++ rest = m.flatMap code ++ rest') : l = m ∧ rest = rest' := by
  induction l generalizing m with
  | nil =>
    obtain rfl := List.eq_nil_of_length_eq_zero hlength.symm
    exact ⟨rfl, heq⟩
  | cons a l ih =>
    cases m with
    | nil => cases hlength
    | cons b m =>
      rw [List.forall_mem_cons] at hl hm
      rw [List.flatMap_cons, List.flatMap_cons, List.append_assoc, List.append_assoc] at heq
      obtain ⟨rfl, htail⟩ := h a b hl.1 hm.1 _ _ heq
      obtain ⟨rfl, hrest⟩ := ih hl.2 hm.2 (Nat.succ.inj hlength) htail
      exact ⟨rfl, hrest⟩

/-- A list after its length. -/
theorem Delimits.list (h : Delimits fits code) {bound : ℕ} {count : ℕ → List σ}
    (hcount : Delimits (· < bound) count) :
    Delimits (fun l : List α => l.length < bound ∧ ∀ a ∈ l, fits a)
      fun l => count l.length ++ l.flatMap code := by
  intro l m hl hm rest rest' heq
  rw [List.append_assoc, List.append_assoc] at heq
  obtain ⟨hlength, htail⟩ := hcount _ _ hl.1 hm.1 _ _ heq
  exact h.flatMap hl.2 hm.2 hlength htail

theorem delimits_singleton : Delimits (fun _ => True) fun a : σ => [a] := by
  intro a b _ _ rest rest' heq
  exact List.cons.inj heq

/-- Symbols after their number. -/
theorem delimits_framed {bound : ℕ} {count : ℕ → List σ} (hcount : Delimits (· < bound) count) :
    Delimits (fun l : List σ => l.length < bound) fun l => count l.length ++ l := by
  have h := (delimits_singleton (σ := σ)).list hcount
  simp only [List.flatMap_singleton', implies_true, and_true] at h
  exact h

end Codes

section Numbers

/-- A number in a fixed number of bytes, the highest first. -/
def bigEndian : ℕ → ℕ → List UInt8
  | 0, _ => []
  | k + 1, n => bigEndian k (n / 256) ++ [UInt8.ofNat n]

theorem length_bigEndian (k n : ℕ) : (bigEndian k n).length = k := by
  induction k generalizing n with
  | zero => rfl
  | succ k ih => rw [bigEndian, List.length_append, ih, List.length_singleton]

theorem bigEndian_inj {k m n : ℕ} (hm : m < 256 ^ k) (hn : n < 256 ^ k)
    (h : bigEndian k m = bigEndian k n) : m = n := by
  induction k generalizing m n with
  | zero => exact (Nat.lt_one_iff.mp hm).trans (Nat.lt_one_iff.mp hn).symm
  | succ k ih =>
    rw [bigEndian, bigEndian] at h
    obtain ⟨hhigh, hlow⟩ := List.append_inj h (by rw [length_bigEndian, length_bigEndian])
    have hdiv : m / 256 = n / 256 := by
      rw [Nat.pow_succ] at hm hn
      exact ih (Nat.div_lt_of_lt_mul (Nat.mul_comm _ _ ▸ hm))
        (Nat.div_lt_of_lt_mul (Nat.mul_comm _ _ ▸ hn)) hhigh
    have hmod := congrArg UInt8.toNat (List.cons.inj hlow).1
    rw [UInt8.toNat_ofNat', UInt8.toNat_ofNat'] at hmod
    omega

theorem delimits_bigEndian (k : ℕ) : Delimits (· < 256 ^ k) (bigEndian k) := by
  intro m n hm hn rest rest' heq
  obtain ⟨hcode, hrest⟩ := List.append_inj heq (by rw [length_bigEndian, length_bigEndian])
  exact ⟨bigEndian_inj hm hn hcode, hrest⟩

end Numbers

end PrefixCodes
