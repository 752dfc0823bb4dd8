import Mathlib.Data.Nat.Bitwise
import Mathlib.Tactic.Ring
import Mathlib.Data.List.ReduceOption
import Walgit.Checks
import Walgit.Wire

/-!
# Deltas

The result of a delta applied to its base: two sizes, then copies of stretches of the base and
insertions of bytes of the delta's own.
-/
namespace Walgit.Deltas

abbrev Bytes := List UInt8

/-- The most bytes that one allocation holds. -/
def isizeMax : ℕ := 2 ^ 63 - 1

/-- A slice in memory. -/
structure Slice where
  bytes : Bytes
  bounded : bytes.length ≤ isizeMax

/-- How a call ends that returns no value. -/
inductive Fault where
  | err (message : String)
  | panic (message : String)
  deriving DecidableEq, Repr

section Code

/-- The value read and the bytes that follow; what is shifted out of 64 bits is lost. -/
def varint (shift v : ℕ) : Bytes → Except String (ℕ × Bytes)
  | [] => .error "delta header truncated"
  | b :: rest =>
    let v := v ||| ((b &&& 0x7f).toNat <<< shift) % 2 ^ 64
    if b &&& 0x80 = 0 then .ok (v, rest)
    else if 63 < shift + 7 then .error "delta header overflow"
    else varint (shift + 7) v rest

def deltaResultSize (delta : Bytes) : Except String ℕ := do
  let (_, rest) ← varint 0 0 delta
  let (res, _) ← varint 0 0 rest
  pure res

/-- One more byte of an operand, if the command has its flag. -/
def nb (cmd flag : UInt8) (shift : ℕ) (s : ℕ × Bytes) : Except String (ℕ × Bytes) :=
  if cmd &&& flag ≠ 0 then
    match s.2 with
    | [] => .error "delta copy truncated"
    | b :: rest => .ok (s.1 ||| b.toNat <<< shift, rest)
  else .ok s

/-- The bytes of an operand, the lowest first. -/
def operandBytes (cmd : UInt8) : ℕ → List UInt8 → ℕ × Bytes → Except String (ℕ × Bytes)
  | _, [], s => .ok s
  | shift, flag :: flags, s => nb cmd flag shift s >>= operandBytes cmd (shift + 8) flags

/-- One command: what it appends, and the bytes that follow. -/
def command (base : Bytes) (cmd : UInt8) (rest : Bytes) : Except String (Bytes × Bytes) :=
  if cmd &&& 0x80 ≠ 0 then do
    let (ofs, rest) ← operandBytes cmd 0 [0x01, 0x02, 0x04, 0x08] (0, rest)
    let (size, rest) ← operandBytes cmd 0 [0x10, 0x20, 0x40] (0, rest)
    let size := if size = 0 then 0x10000 else size
    if 2 ^ 64 ≤ ofs + size then throw "delta copy overflow"
    if base.length < ofs + size then throw "delta copy out of base bounds"
    pure ((base.drop ofs).take size, rest)
  else if cmd ≠ 0 then
    if cmd.toNat ≤ rest.length then .ok (rest.take cmd.toNat, rest.drop cmd.toNat)
    else .error "delta insert truncated"
  else .error "delta command 0 is reserved"

theorem nb_length {cmd flag : UInt8} {shift : ℕ} {s s' : ℕ × Bytes}
    (h : nb cmd flag shift s = .ok s') : s'.2.length ≤ s.2.length := by
  unfold nb at h
  split_ifs at h
  · cases hs : s.2 with
    | nil => rw [hs] at h; cases h
    | cons b rest =>
      rw [hs] at h
      cases h
      exact Nat.le_succ _
  · cases h
    exact Nat.le_refl _

theorem operandBytes_length {cmd : UInt8} {flags : List UInt8} {shift : ℕ} {s s' : ℕ × Bytes}
    (h : operandBytes cmd shift flags s = .ok s') : s'.2.length ≤ s.2.length := by
  induction flags generalizing shift s with
  | nil => cases h; exact Nat.le_refl _
  | cons flag flags ih =>
    obtain ⟨t, ht, hrest⟩ := Checks.bind_eq_ok.mp h
    exact Nat.le_trans (ih hrest) (nb_length ht)

theorem command_length {base : Bytes} {cmd : UInt8} {rest : Bytes} {r : Bytes × Bytes}
    (h : command base cmd rest = .ok r) : r.2.length ≤ rest.length := by
  unfold command at h
  split_ifs at h
  · obtain ⟨s, hofs, h⟩ := Checks.bind_eq_ok.mp h
    obtain ⟨t, hsize, h⟩ := Checks.bind_eq_ok.mp h
    simp only [Checks.guard_ok, pure, Except.pure, Except.ok.injEq] at h
    obtain ⟨-, -, rfl⟩ := h
    exact Nat.le_trans (operandBytes_length hsize) (operandBytes_length hofs)
  · cases h
    exact List.length_drop ▸ Nat.sub_le _ _

/-- The commands of a delta, with what they have appended so far. -/
def commands (base out : Bytes) : Bytes → Except String Bytes
  | [] => .ok out
  | cmd :: rest =>
    match _h : command base cmd rest with
    | .error e => .error e
    | .ok (piece, rest') => commands base (out ++ piece) rest'
termination_by delta => delta.length
decreasing_by exact Nat.lt_succ_of_le (command_length ‹_›)

def applyDelta (base delta : Bytes) : Except Fault Bytes := do
  let (baseSize, rest) ← (varint 0 0 delta).mapError .err
  if baseSize ≠ base.length then throw (.err "delta base size mismatch")
  let (resSize, rest) ← (varint 0 0 rest).mapError .err
  -- the output is allocated at once
  if isizeMax < resSize then throw (.panic "capacity overflow")
  let out ← (commands base [] rest).mapError .err
  if out.length ≠ resSize then throw (.err "delta result size mismatch")
  pure out

end Code

section Format

inductive Instruction where
  | copy (ofs size : ℕ)
  | insert (data : Bytes)
  deriving DecidableEq, Repr

/-- What an instruction stands for; a copy lies inside the base. -/
def Instruction.denote (base : Bytes) : Instruction → Option Bytes
  | .copy ofs size => if ofs + size ≤ base.length then some ((base.drop ofs).take size) else none
  | .insert data => some data

def denote (base : Bytes) (instructions : List Instruction) : Option Bytes :=
  (instructions.mapM (Instruction.denote base)).map List.flatten

/-- The value of an operand, the lowest byte first; a byte that is left out is zero. -/
def operand : List (Option UInt8) → ℕ
  | [] => 0
  | b :: bs => (b.getD 0).toNat + 256 * operand bs

/-- The encodings of an instruction. The low bits of a copy's command say which bytes of its
operands follow; size zero means 65536. -/
inductive Instruction.Encodes : Instruction → Bytes → Prop
  | copy {cmd : UInt8} {ofs size : List (Option UInt8)} (hcmd : cmd.toNat.testBit 7 = true)
      (hofs : ofs.length = 4)
      (hflags : (ofs ++ size).map Option.isSome = (List.range 7).map cmd.toNat.testBit) :
      Encodes (.copy (operand ofs) (if operand size = 0 then 65536 else operand size))
        (cmd :: (ofs ++ size).reduceOption)
  | insert {data : Bytes} (hne : data ≠ []) (hlt : data.length < 128) :
      Encodes (.insert data) (UInt8.ofNat data.length :: data)

/-- The bytes are encodings of the instructions, one after another. -/
def Encoded (instructions : List Instruction) (body : Bytes) : Prop :=
  ∃ parts, List.Forall₂ Instruction.Encodes instructions parts ∧ body = parts.flatten

/-- The delta declares the sizes of the base and of the result that its instructions denote, and
memory holds the result. A size has at most ten bytes of seven bits. -/
def Describes (base delta out : Bytes) : Prop :=
  ∃ rest body, Wire.lebDecode 10 delta = some (base.length, rest) ∧
    Wire.lebDecode 10 rest = some (out.length, body) ∧ out.length ≤ isizeMax ∧
    ∃ instructions, Encoded instructions body ∧ denote base instructions = some out

end Format

section Header

theorem toNat_low (b : UInt8) : (b &&& 0x7f).toNat = b.toNat % 128 := by
  rw [UInt8.toNat_and]
  exact Nat.and_two_pow_sub_one_eq_mod b.toNat 7

/-- A flag of a byte is a bit of its number. -/
theorem flag_testBit (b : UInt8) {i : ℕ} (h : i < 8) :
    decide (b &&& UInt8.ofNat (2 ^ i) ≠ 0) = b.toNat.testBit i := by
  have hlt : 2 ^ i < 256 := Nat.pow_lt_pow_right (by decide) h
  have hzero : b &&& UInt8.ofNat (2 ^ i) = 0 ↔ b.toNat &&& 2 ^ i = 0 := by
    rw [← UInt8.toNat_inj, UInt8.toNat_and, UInt8.toNat_ofNat_of_lt' hlt]
    rfl
  rw [Bool.eq_iff_iff, decide_eq_true_eq, ne_eq, hzero, Nat.and_two_pow]
  cases b.toNat.testBit i with
  | false => simp
  | true => simp

theorem continues_iff (b : UInt8) : b &&& 0x80 = 0 ↔ b.toNat < 128 := by
  have hbit := flag_testBit b (i := 7) (by decide)
  have hlt := b.toNat_lt
  rw [Nat.testBit_eq_decide_div_mod_eq, decide_eq_decide] at hbit
  have hflag : UInt8.ofNat (2 ^ 7) = 0x80 := rfl
  rw [hflag] at hbit
  constructor
  · intro h
    have hmod : ¬ b.toNat / 2 ^ 7 % 2 = 1 := fun hmod => hbit.mpr hmod h
    omega
  · intro h
    by_contra hne
    have hmod := hbit.mp hne
    omega

/-- Bits above those of a value are added to it; those beyond the width are lost. -/
theorem or_shifted {s v c : ℕ} (hs : s ≤ 64) (hv : v < 2 ^ s) :
    v ||| (c <<< s) % 2 ^ 64 = (v + 2 ^ s * c) % 2 ^ 64 := by
  have hpow : 2 ^ 64 = 2 ^ s * 2 ^ (64 - s) := by rw [← Nat.pow_add, Nat.add_sub_cancel' hs]
  have hshift : (c <<< s) % 2 ^ 64 = (c % 2 ^ (64 - s)) <<< s := by
    rw [Nat.shiftLeft_eq, Nat.shiftLeft_eq, hpow, Nat.mul_comm c, Nat.mul_mod_mul_left,
      Nat.mul_comm]
  rw [hshift, Nat.or_comm, ← Nat.shiftLeft_add_eq_or_of_lt hv, Nat.shiftLeft_eq, hpow,
    Nat.mod_mul, Nat.add_mul_mod_self_left, Nat.mod_eq_of_lt hv,
    Nat.add_mul_div_left _ _ (Nat.two_pow_pos s), Nat.div_eq_of_lt hv, Nat.zero_add,
    Nat.mul_comm, Nat.add_comm]

/-- What is read is the number written, as far as it fits in 64 bits. -/
theorem varint_ok {j v : ℕ} (hj : j ≤ 9) (hv : v < 2 ^ (7 * j)) {bytes : Bytes} {p : ℕ × Bytes} :
    varint (7 * j) v bytes = .ok p ↔
      ∃ n, Wire.lebDecode (10 - j) bytes = some (n, p.2) ∧
        p.1 = (v + 2 ^ (7 * j) * n) % 2 ^ 64 := by
  induction bytes generalizing j v with
  | nil =>
    have hnone : Wire.lebDecode (10 - j) [] = none := by
      cases 10 - j with
      | zero => rfl
      | succ k => rfl
    simp [varint, hnone]
  | cons b rest ih =>
    have hbits : v ||| ((b &&& 0x7f).toNat <<< (7 * j)) % 2 ^ 64 =
        (v + 2 ^ (7 * j) * (b.toNat % 128)) % 2 ^ 64 := by
      rw [toNat_low, or_shifted (by omega) hv]
    have hsteps : 10 - j = (9 - j) + 1 := by omega
    rw [varint, hbits, hsteps, Wire.lebDecode]
    simp only [continues_iff]
    by_cases hlast : b.toNat < 128
    · rw [if_pos hlast, if_pos hlast, Nat.mod_eq_of_lt hlast]
      constructor
      · intro h
        cases h
        exact ⟨_, rfl, rfl⟩
      · rintro ⟨n, hn, hp⟩
        cases hn
        rw [← hp]
    · rw [if_neg hlast, if_neg hlast]
      by_cases hten : j = 9
      · subst hten
        simp [Wire.lebDecode]
      · have hpow : 2 ^ (7 * (j + 1)) = 2 ^ (7 * j) * 128 := by rw [Nat.mul_succ, Nat.pow_add]
        have hle : 2 ^ (7 * (j + 1)) ≤ 2 ^ 63 := Nat.pow_le_pow_right (by decide) (by omega)
        have hmod := Nat.mod_lt b.toNat (by decide : 0 < 128)
        have hlow : v + 2 ^ (7 * j) * (b.toNat % 128) < 2 ^ (7 * (j + 1)) := by
          have hmul := Nat.mul_le_mul_left (2 ^ (7 * j)) (Nat.le_of_lt_succ hmod)
          rw [hpow]
          omega
        rw [if_neg (by omega), ← Nat.mul_succ, Nat.mod_eq_of_lt (by omega),
          ih (by omega) hlow, show 10 - (j + 1) = 9 - j by omega]
        have hsum (n : ℕ) : v + 2 ^ (7 * j) * (b.toNat % 128) + 2 ^ (7 * (j + 1)) * n =
            v + 2 ^ (7 * j) * (b.toNat % 128 + 128 * n) := by
          rw [hpow]
          ring
        simp only [hsum, Option.map_eq_some_iff, Prod.mk.injEq]
        constructor
        · rintro ⟨n, hn, hp⟩
          exact ⟨_, ⟨(n, p.2), hn, rfl, rfl⟩, hp⟩
        · rintro ⟨n, ⟨q, hq, rfl, hrest⟩, hp⟩
          exact ⟨q.1, by rw [hq, ← hrest], hp⟩

end Header

section Operands

theorem operand_lt (ops : List (Option UInt8)) : operand ops < 2 ^ (8 * ops.length) := by
  induction ops with
  | nil => exact Nat.one_pos
  | cons b ops ih =>
    have hb := (b.getD 0).toNat_lt
    rw [operand, List.length_cons, Nat.mul_succ, Nat.pow_add]
    omega

/-- One byte of an operand is read as its flag says. -/
theorem nb_ok {cmd flag : UInt8} {shift v : ℕ} (hv : v < 2 ^ shift) {rest : Bytes}
    {s : ℕ × Bytes} : nb cmd flag shift (v, rest) = .ok s ↔
      ∃ op : Option UInt8, op.isSome = decide (cmd &&& flag ≠ 0) ∧ rest = op.toList ++ s.2 ∧
        s.1 = v + 2 ^ shift * (op.getD 0).toNat := by
  have hor (b : UInt8) : v ||| b.toNat <<< shift = v + 2 ^ shift * b.toNat := by
    rw [Nat.or_comm, ← Nat.shiftLeft_add_eq_or_of_lt hv, Nat.shiftLeft_eq, Nat.mul_comm,
      Nat.add_comm]
  by_cases hflag : cmd &&& flag = 0
  · rw [nb, if_neg (not_not.mpr hflag), decide_eq_false (not_not.mpr hflag)]
    constructor
    · intro h
      cases h
      exact ⟨none, rfl, rfl, by simp⟩
    · rintro ⟨op, hop, hrest, hval⟩
      obtain rfl : op = none := by simpa using hop
      rw [hrest, show s = (v, s.2) from Prod.ext (by simpa using hval) rfl]
      rfl
  · rw [nb, if_pos hflag, decide_eq_true hflag]
    constructor
    · intro h
      cases rest with
      | nil => cases h
      | cons b rest =>
        cases h
        exact ⟨some b, rfl, rfl, hor b⟩
    · rintro ⟨op, hop, hrest, hval⟩
      obtain ⟨b, rfl⟩ := Option.isSome_iff_exists.mp hop
      have hs : s = (v ||| b.toNat <<< shift, s.2) := Prod.ext (hval.trans (hor b).symm) rfl
      rw [hrest, hs]
      rfl

theorem operandBytes_ok {cmd : UInt8} {flags : List UInt8} {shift v : ℕ} (hv : v < 2 ^ shift)
    {rest : Bytes} {s : ℕ × Bytes} : operandBytes cmd shift flags (v, rest) = .ok s ↔
      ∃ ops : List (Option UInt8),
        ops.map Option.isSome = flags.map (fun flag => decide (cmd &&& flag ≠ 0)) ∧
        rest = ops.reduceOption ++ s.2 ∧ s.1 = v + 2 ^ shift * operand ops := by
  induction flags generalizing shift v rest with
  | nil =>
    constructor
    · intro h
      cases h
      exact ⟨[], rfl, rfl, by simp [operand]⟩
    · rintro ⟨ops, hops, hrest, hval⟩
      obtain rfl := List.map_eq_nil_iff.mp hops
      rw [hrest, show s = (v, s.2) from Prod.ext (by simpa [operand] using hval) rfl]
      rfl
  | cons flag flags ih =>
    have hnext (op : Option UInt8) : v + 2 ^ shift * (op.getD 0).toNat < 2 ^ (shift + 8) := by
      have hmul := Nat.mul_le_mul_left (2 ^ shift) (Nat.le_of_lt_succ (op.getD 0).toNat_lt)
      rw [Nat.pow_add]
      omega
    have hsum (op : Option UInt8) (ops : List (Option UInt8)) :
        v + 2 ^ shift * (op.getD 0).toNat + 2 ^ (shift + 8) * operand ops =
          v + 2 ^ shift * operand (op :: ops) := by
      rw [operand, Nat.pow_add]
      ring
    rw [operandBytes, Checks.bind_eq_ok]
    constructor
    · rintro ⟨⟨v', rest'⟩, hnb, hrest⟩
      obtain ⟨op, hop, rfl, rfl⟩ := (nb_ok hv).mp hnb
      obtain ⟨ops, hops, rfl, hval⟩ := (ih (hnext op)).mp hrest
      refine ⟨op :: ops, by simp [hop, hops], ?_, hval.trans (hsum op ops)⟩
      cases op with
      | none => simp
      | some b => simp
    · rintro ⟨ops, hops, rfl, hval⟩
      cases ops with
      | nil => cases hops
      | cons op ops =>
        simp only [List.map_cons, List.cons.injEq] at hops
        refine ⟨(v + 2 ^ shift * (op.getD 0).toNat, ops.reduceOption ++ s.2),
          (nb_ok hv).mpr ⟨op, hops.1, ?_, rfl⟩,
          (ih (hnext op)).mpr ⟨ops, hops.2, rfl, hval.trans (hsum op ops).symm⟩⟩
        cases op with
        | none => simp
        | some b => simp

theorem operandBytes_zero {cmd : UInt8} {flags : List UInt8} {rest : Bytes} {s : ℕ × Bytes} :
    operandBytes cmd 0 flags (0, rest) = .ok s ↔
      ∃ ops : List (Option UInt8),
        ops.map Option.isSome = flags.map (fun flag => decide (cmd &&& flag ≠ 0)) ∧
        rest = ops.reduceOption ++ s.2 ∧ s.1 = operand ops := by
  rw [operandBytes_ok (Nat.two_pow_pos 0)]
  simp only [Nat.pow_zero, Nat.one_mul, Nat.zero_add]

theorem denote_copy {base piece : Bytes} {ofs size : ℕ} :
    (Instruction.copy ofs size).denote base = some piece ↔
      ofs + size ≤ base.length ∧ (base.drop ofs).take size = piece := by
  rw [Instruction.denote, Option.ite_none_right_eq_some, Option.some.injEq]

end Operands

section Stream

theorem ofsFlags (cmd : UInt8) :
    [0x01, 0x02, 0x04, 0x08].map (fun flag => decide (cmd &&& flag ≠ 0)) =
      (List.range 4).map cmd.toNat.testBit := by
  simp only [← flag_testBit cmd (show 0 < 8 by decide), ← flag_testBit cmd (show 1 < 8 by decide),
    ← flag_testBit cmd (show 2 < 8 by decide), ← flag_testBit cmd (show 3 < 8 by decide),
    List.map, List.range, List.range.loop]
  rfl

theorem sizeFlags (cmd : UInt8) :
    [0x10, 0x20, 0x40].map (fun flag => decide (cmd &&& flag ≠ 0)) =
      [4, 5, 6].map cmd.toNat.testBit := by
  simp only [← flag_testBit cmd (show 4 < 8 by decide), ← flag_testBit cmd (show 5 < 8 by decide),
    ← flag_testBit cmd (show 6 < 8 by decide), List.map]
  rfl

theorem isCopy_iff (cmd : UInt8) : cmd &&& 0x80 ≠ 0 ↔ cmd.toNat.testBit 7 = true := by
  rw [← flag_testBit cmd (show 7 < 8 by decide), decide_eq_true_eq]
  rfl

/-- A copy command and what it reads, against the operands that its flags stand for. -/
theorem copy_ok {base : Bytes} {cmd : UInt8} {rest : Bytes} {r : Bytes × Bytes}
    (hcopy : cmd.toNat.testBit 7 = true) : command base cmd rest = .ok r ↔
      ∃ ofs size : List (Option UInt8), ofs.length = 4 ∧
        (ofs ++ size).map Option.isSome = (List.range 7).map cmd.toNat.testBit ∧
        rest = (ofs ++ size).reduceOption ++ r.2 ∧
        (Instruction.copy (operand ofs) (if operand size = 0 then 65536 else operand size)).denote
          base = some r.1 := by
  have hrange : (List.range 7).map cmd.toNat.testBit =
      (List.range 4).map cmd.toNat.testBit ++ [4, 5, 6].map cmd.toNat.testBit := rfl
  rw [command, if_pos ((isCopy_iff cmd).mpr hcopy), Checks.bind_eq_ok]
  simp only [Checks.bind_eq_ok, Checks.guard_ok, pure, Except.pure, Except.ok.injEq, denote_copy,
    operandBytes_zero, ofsFlags, sizeFlags]
  constructor
  · rintro ⟨⟨_, _⟩, ⟨ofs, hofs, rfl, rfl⟩, ⟨_, _⟩, ⟨size, hsize, rfl, rfl⟩, -, hbase, rfl⟩
    have hlength : ofs.length = 4 := by simpa using congrArg List.length hofs
    refine ⟨ofs, size, hlength, ?_, ?_, Nat.le_of_not_lt hbase, rfl⟩
    · rw [List.map_append, hofs, hsize, hrange]
    · rw [List.reduceOption_append, List.append_assoc]
  · rintro ⟨ofs, size, hlength, hflags, rfl, hbase, hpiece⟩
    rw [List.map_append, hrange] at hflags
    obtain ⟨hofs, hsize⟩ := List.append_inj hflags (by simp [hlength])
    have hsizes : size.length = 3 := by simpa using congrArg List.length hsize
    have hofsLt := operand_lt ofs
    have hsizeLt := operand_lt size
    rw [hlength] at hofsLt
    rw [hsizes] at hsizeLt
    refine ⟨(operand ofs, size.reduceOption ++ r.2), ⟨ofs, hofs, ?_, rfl⟩, (operand size, r.2),
      ⟨size, hsize, rfl, rfl⟩, ?_, Nat.not_lt.mpr hbase, Prod.ext hpiece rfl⟩
    · rw [List.reduceOption_append, List.append_assoc]
    · show ¬ 2 ^ 64 ≤ operand ofs + (if operand size = 0 then 65536 else operand size)
      split_ifs <;> omega

/-- One pass of the loop reads one instruction. -/
theorem command_ok {base : Bytes} {cmd : UInt8} {rest : Bytes} {r : Bytes × Bytes} :
    command base cmd rest = .ok r ↔ ∃ (i : Instruction) (operands : Bytes),
      i.Encodes (cmd :: operands) ∧ rest = operands ++ r.2 ∧ i.denote base = some r.1 := by
  by_cases hcopy : cmd.toNat.testBit 7 = true
  · rw [copy_ok hcopy]
    constructor
    · rintro ⟨ofs, size, hofs, hflags, hrest, hdenote⟩
      exact ⟨_, _, .copy hcopy hofs hflags, hrest, hdenote⟩
    · rintro ⟨i, operands, hi, hrest, hdenote⟩
      cases hi with
      | copy _ hofs hflags => exact ⟨_, _, hofs, hflags, hrest, hdenote⟩
      | insert hne hlt =>
        rw [UInt8.toNat_ofNat_of_lt' (Nat.lt_trans hlt (by decide)),
          Nat.testBit_lt_two_pow hlt] at hcopy
        cases hcopy
  · have hlow : cmd.toNat < 128 := by
      rw [← continues_iff]
      exact not_not.mp (mt (isCopy_iff cmd).mp hcopy)
    rw [command, if_neg (mt (isCopy_iff cmd).mp hcopy)]
    by_cases hzero : cmd = 0
    · rw [if_neg (not_not.mpr hzero)]
      refine iff_of_false (fun h => by cases h) ?_
      rintro ⟨i, operands, hi, -, -⟩
      cases hi with
      | copy hbit => exact hcopy hbit
      | insert hne hlt =>
        have hlength := congrArg UInt8.toNat hzero
        rw [UInt8.toNat_ofNat_of_lt' (Nat.lt_trans hlt (by decide))] at hlength
        exact hne (List.eq_nil_of_length_eq_zero hlength)
    · have hpos : cmd.toNat ≠ 0 := fun h => hzero (UInt8.toNat_inj.mp h)
      rw [if_pos hzero]
      constructor
      · intro h
        split_ifs at h with hle
        cases h
        have hlength : (rest.take cmd.toNat).length = cmd.toNat := List.length_take_of_le hle
        have hencodes := @Instruction.Encodes.insert (rest.take cmd.toNat)
          (List.ne_nil_of_length_pos (by omega)) (by omega)
        rw [hlength, UInt8.ofNat_toNat] at hencodes
        exact ⟨_, _, hencodes, (List.take_append_drop _ _).symm, rfl⟩
      · rintro ⟨i, operands, hi, rfl, hdenote⟩
        cases hi with
        | copy hbit => exact absurd hbit hcopy
        | insert hne hlt =>
          rw [UInt8.toNat_ofNat_of_lt' (Nat.lt_trans hlt (by decide)),
            if_pos (by simp), List.take_left, List.drop_left]
          exact congrArg Except.ok (Prod.ext (Option.some.inj hdenote) rfl)

theorem commands_cons (base out : Bytes) (cmd : UInt8) (rest : Bytes) :
    commands base out (cmd :: rest) =
      command base cmd rest >>= fun r => commands base (out ++ r.1) r.2 := by
  rw [commands]
  split
  · next h => rw [h]; rfl
  · next h => rw [h]; rfl

theorem Encoded.cons {i : Instruction} {instructions : List Instruction} {enc body : Bytes}
    (hi : i.Encodes enc) (h : Encoded instructions body) :
    Encoded (i :: instructions) (enc ++ body) := by
  obtain ⟨parts, hparts, rfl⟩ := h
  exact ⟨enc :: parts, .cons hi hparts, rfl⟩

theorem denote_cons {base : Bytes} {i : Instruction} {instructions : List Instruction}
    {out : Bytes} : denote base (i :: instructions) = some out ↔
      ∃ piece rest, i.denote base = some piece ∧ denote base instructions = some rest ∧
        piece ++ rest = out := by
  simp only [denote, List.mapM_cons]
  cases i.denote base with
  | none => simp
  | some piece =>
    cases instructions.mapM (Instruction.denote base) with
    | none => simp
    | some pieces => simp

/-- The commands run to an end exactly if they are encodings of instructions that denote what is
appended. The induction is on the passes of the loop. -/
theorem commands_ok {base acc body out : Bytes} : commands base acc body = .ok out ↔
    ∃ instructions res, Encoded instructions body ∧ denote base instructions = some res ∧
      out = acc ++ res := by
  constructor
  · intro h
    induction acc, body using commands.induct base with
    | case1 =>
      rw [commands] at h
      cases h
      exact ⟨[], [], ⟨[], .nil, rfl⟩, rfl, (List.append_nil _).symm⟩
    | case2 acc cmd rest e he =>
      rw [commands_cons, he] at h
      cases h
    | case3 acc cmd rest piece rest' hcmd ih =>
      rw [commands_cons, hcmd] at h
      obtain ⟨instructions, res, hrest, hres, rfl⟩ := ih h
      obtain ⟨i, operands, hi, rfl, hpiece⟩ := command_ok.mp hcmd
      exact ⟨i :: instructions, piece ++ res, hrest.cons hi,
        denote_cons.mpr ⟨piece, res, hpiece, hres, rfl⟩, List.append_assoc _ _ _⟩
  · rintro ⟨instructions, res, ⟨parts, hparts, rfl⟩, hres, rfl⟩
    induction hparts generalizing acc res with
    | nil =>
      cases hres
      rw [List.flatten_nil, commands]
      exact congrArg Except.ok (List.append_nil acc).symm
    | @cons i enc instructions parts hi _ ih =>
      obtain ⟨piece, tail, hpiece, htail, rfl⟩ := denote_cons.mp hres
      have hne : ∃ cmd operands, enc = cmd :: operands := by
        cases hi with
        | copy => exact ⟨_, _, rfl⟩
        | insert => exact ⟨_, _, rfl⟩
      obtain ⟨cmd, operands, rfl⟩ := hne
      have hcmd : command base cmd (operands ++ parts.flatten) = .ok (piece, parts.flatten) :=
        command_ok.mpr ⟨i, operands, hi, rfl, hpiece⟩
      rw [List.flatten_cons, List.cons_append, commands_cons, hcmd, Checks.ok_bind, ih tail htail,
        List.append_assoc]

theorem commands_run {base body out : Bytes} : commands base [] body = .ok out ↔
    ∃ instructions, Encoded instructions body ∧ denote base instructions = some out := by
  rw [commands_ok]
  constructor
  · rintro ⟨instructions, res, hbody, hres, rfl⟩
    exact ⟨instructions, hbody, hres⟩
  · rintro ⟨instructions, hbody, hres⟩
    exact ⟨instructions, out, hbody, hres, rfl⟩

end Stream

section Faithful

/-- The result of a delta, or an error: there is one exactly if the delta describes it, and no
input ends the call otherwise. -/
def Meets (base delta : Bytes) : Prop :=
  (∀ out, applyDelta base delta = .ok out ↔ Describes base delta out) ∧
    ∀ message, applyDelta base delta ≠ .error (.panic message)

/-- Once the size of the base is the right one in 64 bits, the result can be allocated; a size
beyond 64 bits is followed by commands that fail or do not make the result's size in 64 bits. -/
def Sized (base delta : Bytes) : Prop :=
  ∀ b r rest body, Wire.lebDecode 10 delta = some (b, rest) →
    Wire.lebDecode 10 rest = some (r, body) → b % 2 ^ 64 = base.length →
    r % 2 ^ 64 ≤ isizeMax ∧ (b < 2 ^ 64 ∧ r < 2 ^ 64 ∨
      ∀ instructions out, Encoded instructions body → denote base instructions = some out →
        out.length ≠ r % 2 ^ 64)

section Runs

variable {base delta rest body : Bytes} {b r : ℕ}

theorem varint_read {bytes : Bytes} {p : ℕ × Bytes} : varint 0 0 bytes = .ok p ↔
    ∃ n, Wire.lebDecode 10 bytes = some (n, p.2) ∧ p.1 = n % 2 ^ 64 := by
  have h := @varint_ok 0 0 (by decide) (by decide) bytes p
  simpa using h

variable (base) in
/-- With both sizes read, what remains are the commands. -/
theorem applyDelta_header (hb : Wire.lebDecode 10 delta = some (b, rest))
    (hr : Wire.lebDecode 10 rest = some (r, body)) : applyDelta base delta =
      if b % 2 ^ 64 ≠ base.length then .error (.err "delta base size mismatch")
      else if isizeMax < r % 2 ^ 64 then .error (.panic "capacity overflow")
      else (commands base [] body).mapError .err >>= fun out =>
        if out.length ≠ r % 2 ^ 64 then .error (.err "delta result size mismatch")
        else .ok out := by
  have hfirst : varint 0 0 delta = .ok (b % 2 ^ 64, rest) := varint_read.mpr ⟨b, hb, rfl⟩
  have hsecond : varint 0 0 rest = .ok (r % 2 ^ 64, body) := varint_read.mpr ⟨r, hr, rfl⟩
  rw [applyDelta, hfirst]
  simp only [Except.mapError, Checks.ok_bind, hsecond, Checks.throw_bind]
  split_ifs <;> rfl

variable (base) in
/-- A header that cannot be read is an error. -/
theorem applyDelta_headless (h : ∀ b r rest body, Wire.lebDecode 10 delta = some (b, rest) →
    Wire.lebDecode 10 rest ≠ some (r, body)) :
    ∃ message, applyDelta base delta = .error (.err message) := by
  rw [applyDelta]
  cases hfirst : varint 0 0 delta with
  | error e => exact ⟨e, rfl⟩
  | ok p =>
    obtain ⟨b, hb, -⟩ := varint_read.mp hfirst
    simp only [Except.mapError, Checks.ok_bind, Checks.throw_bind]
    split_ifs
    · exact ⟨_, rfl⟩
    · cases hsecond : varint 0 0 p.2 with
      | error e => exact ⟨e, rfl⟩
      | ok q =>
        obtain ⟨r, hr, -⟩ := varint_read.mp hsecond
        exact absurd hr (h b r p.2 q.2 hb)

theorem describes_header (hb : Wire.lebDecode 10 delta = some (b, rest))
    (hr : Wire.lebDecode 10 rest = some (r, body)) {out : Bytes} : Describes base delta out ↔
      b = base.length ∧ r = out.length ∧ out.length ≤ isizeMax ∧
        commands base [] body = .ok out := by
  rw [commands_run]
  constructor
  · rintro ⟨rest', body', hb', hr', h⟩
    rw [hb] at hb'
    cases hb'
    rw [hr] at hr'
    cases hr'
    exact ⟨rfl, rfl, h⟩
  · rintro ⟨rfl, rfl, h⟩
    exact ⟨rest, body, hb, hr, h⟩

theorem sized_header (hb : Wire.lebDecode 10 delta = some (b, rest))
    (hr : Wire.lebDecode 10 rest = some (r, body)) : Sized base delta ↔
      (b % 2 ^ 64 = base.length → r % 2 ^ 64 ≤ isizeMax ∧ (b < 2 ^ 64 ∧ r < 2 ^ 64 ∨
        ∀ out, commands base [] body = .ok out → out.length ≠ r % 2 ^ 64)) := by
  simp only [commands_run]
  constructor
  · intro h heq
    obtain ⟨hle, hsize⟩ := h b r rest body hb hr heq
    exact ⟨hle, hsize.imp_right fun hfails out ⟨is, his, hout⟩ => hfails is out his hout⟩
  · intro h b' r' rest' body' hb' hr' heq
    rw [hb] at hb'
    cases hb'
    rw [hr] at hr'
    cases hr'
    obtain ⟨hle, hsize⟩ := h heq
    exact ⟨hle, hsize.imp_right fun hfails is out his hout => hfails out ⟨is, his, hout⟩⟩

/-- Past the checks of the header, the result is what the commands append. -/
theorem applyDelta_ok (hb : Wire.lebDecode 10 delta = some (b, rest))
    (hr : Wire.lebDecode 10 rest = some (r, body)) (heq : b % 2 ^ 64 = base.length)
    (hle : r % 2 ^ 64 ≤ isizeMax) : (∀ message, applyDelta base delta ≠ .error (.panic message)) ∧
      ∀ out, applyDelta base delta = .ok out ↔
        commands base [] body = .ok out ∧ out.length = r % 2 ^ 64 := by
  rw [applyDelta_header base hb hr, if_neg (not_not.mpr heq), if_neg (Nat.not_lt.mpr hle)]
  cases commands base [] body with
  | error e => simp [Except.mapError, bind, Except.bind]
  | ok res =>
    simp only [Except.mapError, Checks.ok_bind]
    split_ifs with hlength
    · refine ⟨fun message h => (by cases h), fun out => iff_of_false (fun h => by cases h) ?_⟩
      rintro ⟨hout, hsize⟩
      cases hout
      exact hlength hsize
    · refine ⟨fun message h => (by cases h), fun out => ?_⟩
      rw [Except.ok.injEq, Except.ok.injEq]
      exact ⟨fun h => ⟨h, h ▸ not_not.mp hlength⟩, fun h => h.1⟩

/-- The result is the one described, unless a size that is too large for 64 bits is taken for
another one. -/
theorem meets_header (hbase : base.length ≤ isizeMax)
    (hb : Wire.lebDecode 10 delta = some (b, rest)) (hr : Wire.lebDecode 10 rest = some (r, body))
    (heq : b % 2 ^ 64 = base.length) (hle : r % 2 ^ 64 ≤ isizeMax) :
    Meets base delta ↔ (b < 2 ^ 64 ∧ r < 2 ^ 64 ∨
      ∀ out, commands base [] body = .ok out → out.length ≠ r % 2 ^ 64) := by
  obtain ⟨hpanic, hok⟩ := applyDelta_ok hb hr heq hle
  have hmax : isizeMax < 2 ^ 64 := by decide
  constructor
  · intro h
    by_cases hsizes : b < 2 ^ 64 ∧ r < 2 ^ 64
    · exact Or.inl hsizes
    · refine Or.inr fun out hrun hlength => hsizes ?_
      have hdescribes := (h.1 out).mp ((hok out).mpr ⟨hrun, hlength⟩)
      obtain ⟨rfl, rfl, hout, -⟩ := (describes_header hb hr).mp hdescribes
      exact ⟨Nat.lt_of_le_of_lt hbase hmax, Nat.lt_of_le_of_lt hout hmax⟩
  · intro h
    refine ⟨fun out => ?_, hpanic⟩
    rw [hok, describes_header hb hr]
    rcases h with ⟨hb64, hr64⟩ | hfails
    · rw [Nat.mod_eq_of_lt hb64] at heq
      rw [Nat.mod_eq_of_lt hr64] at hle ⊢
      exact ⟨fun ⟨hrun, hlength⟩ => ⟨heq, hlength.symm, hlength ▸ hle, hrun⟩,
        fun ⟨_, hlength, _, hrun⟩ => ⟨hrun, hlength.symm⟩⟩
    · refine iff_of_false (fun ⟨hrun, hlength⟩ => hfails out hrun hlength) ?_
      rintro ⟨-, rfl, hout, hrun⟩
      exact hfails out hrun (Nat.mod_eq_of_lt (Nat.lt_of_le_of_lt hout hmax)).symm

end Runs

/-- The decoder of deltas does what the format says exactly on the deltas whose sizes it holds. -/
theorem meets_iff_sized (base : Slice) (delta : Bytes) :
    Meets base.bytes delta ↔ Sized base.bytes delta := by
  have hbase : base.bytes.length < 2 ^ 64 := Nat.lt_of_le_of_lt base.bounded (by decide)
  by_cases hheader : ∃ b r rest body, Wire.lebDecode 10 delta = some (b, rest) ∧
      Wire.lebDecode 10 rest = some (r, body)
  · obtain ⟨b, r, rest, body, hb, hr⟩ := hheader
    rw [sized_header hb hr]
    by_cases heq : b % 2 ^ 64 = base.bytes.length
    · by_cases hle : r % 2 ^ 64 ≤ isizeMax
      · rw [meets_header base.bounded hb hr heq hle]
        exact ⟨fun h _ => ⟨hle, h⟩, fun h => (h heq).2⟩
      · have hpanics := applyDelta_header base.bytes hb hr
        rw [if_neg (not_not.mpr heq), if_pos (Nat.lt_of_not_le hle)] at hpanics
        exact iff_of_false (fun h => h.2 _ hpanics) fun h => hle (h heq).1
    · have herror := applyDelta_header base.bytes hb hr
      rw [if_pos heq] at herror
      refine iff_of_true ⟨fun out => ?_, fun message h => ?_⟩ fun h => absurd h heq
      · refine iff_of_false (fun h => by rw [herror] at h; cases h) fun h => ?_
        obtain ⟨hb', -⟩ := (describes_header hb hr).mp h
        exact heq (by rw [hb', Nat.mod_eq_of_lt hbase])
      · rw [herror] at h
        cases h
  · obtain ⟨message, herror⟩ := applyDelta_headless base.bytes
      fun b r rest body hb hr => hheader ⟨b, r, rest, body, hb, hr⟩
    refine iff_of_true ⟨fun out => ?_, fun message h => ?_⟩ fun b r rest body hb hr =>
      absurd ⟨b, r, rest, body, hb, hr⟩ hheader
    · refine iff_of_false (fun h => by rw [herror] at h; cases h) fun h => ?_
      obtain ⟨rest, body, hb, hr, -⟩ := h
      exact hheader ⟨_, _, rest, body, hb, hr⟩
    · rw [herror] at h
      cases h

/-- A declared result of 2 ^ 63 bytes panics, and an empty result is returned for a base that is
declared to have 2 ^ 64 bytes. -/
theorem meets_fails :
    (applyDelta [] [0, 128, 128, 128, 128, 128, 128, 128, 128, 128, 1] =
        .error (.panic "capacity overflow") ∧
      ¬ Meets [] [0, 128, 128, 128, 128, 128, 128, 128, 128, 128, 1]) ∧
    applyDelta [] [128, 128, 128, 128, 128, 128, 128, 128, 128, 2, 0] = .ok [] ∧
      ¬ Meets [] [128, 128, 128, 128, 128, 128, 128, 128, 128, 2, 0] := by
  have hpanic : applyDelta [] [0, 128, 128, 128, 128, 128, 128, 128, 128, 128, 1] =
      .error (.panic "capacity overflow") := by
    rw [applyDelta_header (b := 0) (r := 2 ^ 63) [] rfl rfl]
    rfl
  have hempty : applyDelta [] [128, 128, 128, 128, 128, 128, 128, 128, 128, 2, 0] = .ok [] := by
    rw [applyDelta_header (b := 2 ^ 64) (r := 0) [] rfl rfl, commands]
    rfl
  refine ⟨⟨hpanic, fun h => h.2 _ hpanic⟩, hempty, fun h => ?_⟩
  obtain ⟨rest, body, hb, -⟩ := (h.1 []).mp hempty
  have hsize : Wire.lebDecode 10 [128, 128, 128, 128, 128, 128, 128, 128, 128, 2, 0] =
      some (2 ^ 64, [0]) := by decide
  rw [hsize] at hb
  cases hb

end Faithful

end Walgit.Deltas
