import Mathlib.Algebra.Order.Ring.Int
import ReplayVM.Proofs.Steps
import ReplayVM.Step.WordMap

/-!
# Arithmetic over the integers

The instruction set says what an instruction computes over the integers: its operands are words read
with or without a sign, and the result is taken modulo `2 ^ 32`. The operations of the machine are
written with casts between signed and unsigned words of both widths instead. Both agree, for all
operands: no cast loses a bit that counts, and no product outgrows its 64 bits.

## Main definitions

* `signedValue`: the integer that a word stands for in two's complement.
* `AluOp.exact`, `Condition.exact`: operations and conditions over the integers.
* `Instruction.exactValue`, `Instruction.exactTarget`: what an instruction computes for its
  destination and for the program counter.
* `Machine.execute`: the machine after an instruction, by the integers.
* `AluOp.Exact`: what holds of the operations on two operands.

## Main results

* `AluOp.eval_eq_ofInt`, `Condition.holds_eq_exact`: operations and conditions agree.
* `AluOp.exact_operations`: on all operands, products are exact and quotients fit their remainders.
* `Machine.step_eq_execute`: instructions and steps agree.
-/

namespace ReplayVM

/-! ### Words and integers -/

/-- The integer that a word stands for in two's complement. -/
def signedValue (w : UInt32) : Int := if w.toNat < 2 ^ 31 then w.toNat else w.toNat - 2 ^ 32

theorem signedValue_bounds (w : UInt32) : -2 ^ 31 ≤ signedValue w ∧ signedValue w < 2 ^ 31 := by
  have := w.toNat_lt
  unfold signedValue
  split <;> omega

theorem signedValue_emod (w : UInt32) : signedValue w % 2 ^ 32 = w.toNat := by
  have := w.toNat_lt
  unfold signedValue
  split <;> omega

theorem toInt_toInt32 (w : UInt32) : w.toInt32.toInt = signedValue w := by
  have htoNat : w.toBitVec.toNat = w.toNat := rfl
  change w.toBitVec.toInt = _
  rw [BitVec.toInt_eq_toNat_cond, htoNat, signedValue]
  split <;> split <;> omega

theorem signedValue_toUInt32 (i : Int32) : signedValue i.toUInt32 = i.toInt :=
  (toInt_toInt32 i.toUInt32).symm

/-- A word is the residue of an integer. -/
theorem ofInt_eq_iff {z : Int} {w : UInt32} : UInt32.ofInt z = w ↔ z % 2 ^ 32 = w.toNat := by
  have hz : 0 ≤ z % 2 ^ 32 ∧ z % 2 ^ 32 < 2 ^ 32 := by omega
  have hofInt : (UInt32.ofInt z).toNat = (z % 2 ^ 32).toNat % 2 ^ 32 := UInt32.toNat_ofNat'
  have := w.toNat_lt
  rw [← UInt32.toNat_inj, hofInt]
  omega

/-- Congruent integers have one word. -/
theorem ofInt_congr {x y : Int} (h : x % 2 ^ 32 = y % 2 ^ 32) : UInt32.ofInt x = UInt32.ofInt y :=
  ofInt_eq_iff.mpr (h.trans (ofInt_eq_iff.mp rfl))

@[simp] theorem ofInt_signedValue (w : UInt32) : UInt32.ofInt (signedValue w) = w :=
  ofInt_eq_iff.mpr (signedValue_emod w)

@[simp] theorem ofInt_toNat (w : UInt32) : UInt32.ofInt w.toNat = w := by
  have := w.toNat_lt
  rw [ofInt_eq_iff]
  omega

@[simp] theorem ofInt_toInt (i : Int32) : UInt32.ofInt i.toInt = i.toUInt32 := by
  rw [← signedValue_toUInt32, ofInt_signedValue]

theorem ofInt_sub (x y : Int) : UInt32.ofInt (x - y) = UInt32.ofInt x - UInt32.ofInt y := by
  have h : UInt32.ofInt (x - y) + UInt32.ofInt y = UInt32.ofInt x := by
    rw [← UInt32.ofInt_add, Int.sub_add_cancel]
  rw [← h, UInt32.add_sub_cancel]

/-! ### Operations over the integers -/

/-- What an operation computes over the integers. A division rounds towards zero, its remainder has
the sign of the dividend; `/` rounds down. -/
def AluOp.exact : AluOp → (a b : UInt32) → Int
  | .add, a, b => signedValue a + signedValue b
  | .sub, a, b => signedValue a - signedValue b
  | .sll, a, b => a.toNat * 2 ^ (b.toNat % 32)
  | .slt, a, b => if signedValue a < signedValue b then 1 else 0
  | .sltu, a, b => if a.toNat < b.toNat then 1 else 0
  | .xor, a, b => (a.toNat ^^^ b.toNat : Nat)
  | .srl, a, b => a.toNat / 2 ^ (b.toNat % 32)
  | .sra, a, b => signedValue a / 2 ^ (b.toNat % 32)
  | .or, a, b => (a.toNat ||| b.toNat : Nat)
  | .and, a, b => (a.toNat &&& b.toNat : Nat)
  | .mul, a, b => signedValue a * signedValue b
  | .mulh, a, b => signedValue a * signedValue b / 2 ^ 32
  | .mulhsu, a, b => signedValue a * b.toNat / 2 ^ 32
  | .mulhu, a, b => a.toNat * b.toNat / 2 ^ 32
  | .div, a, b => if b.toNat = 0 then -1 else (signedValue a).tdiv (signedValue b)
  | .divu, a, b => if b.toNat = 0 then -1 else a.toNat / b.toNat
  | .rem, a, b => if b.toNat = 0 then signedValue a else (signedValue a).tmod (signedValue b)
  | .remu, a, b => if b.toNat = 0 then a.toNat else a.toNat % b.toNat

/-- Whether a condition holds of the integers that two words stand for. -/
def Condition.exact : Condition → (a b : UInt32) → Bool
  | .eq, a, b => signedValue a = signedValue b
  | .ne, a, b => signedValue a ≠ signedValue b
  | .lt, a, b => signedValue a < signedValue b
  | .ge, a, b => signedValue a ≥ signedValue b
  | .ltu, a, b => a.toNat < b.toNat
  | .geu, a, b => a.toNat ≥ b.toNat

/-! ### Comparisons -/

theorem signedValue_inj {a b : UInt32} : signedValue a = signedValue b ↔ a = b :=
  ⟨fun h => by rw [← ofInt_signedValue a, h, ofInt_signedValue], congrArg signedValue⟩

theorem toInt32_lt_iff {a b : UInt32} : a.toInt32 < b.toInt32 ↔ signedValue a < signedValue b := by
  rw [Int32.lt_iff_toInt_lt, toInt_toInt32, toInt_toInt32]

theorem toInt32_le_iff {a b : UInt32} : a.toInt32 ≤ b.toInt32 ↔ signedValue a ≤ signedValue b := by
  rw [Int32.le_iff_toInt_le, toInt_toInt32, toInt_toInt32]

theorem flagWord_eq_ofInt (p : Prop) [Decidable p] :
    flagWord p = UInt32.ofInt (if p then 1 else 0) := by
  by_cases h : p <;> simp only [h, flagWord] <;> rfl

/-- Conditions agree with the integers. -/
theorem Condition.holds_eq_exact (c : Condition) (a b : UInt32) : c.holds a b = c.exact a b := by
  cases c <;> simp only [holds, exact, ge_iff_le, ne_eq, signedValue_inj, toInt32_lt_iff,
    toInt32_le_iff, UInt32.lt_iff_toNat_lt, UInt32.le_iff_toNat_le]

/-! ### Shifts -/

theorem toNat_and_31 (b : UInt32) : (b &&& 31).toNat = b.toNat % 32 :=
  (UInt32.toNat_and b 31).trans (Nat.and_two_pow_sub_one_eq_mod b.toNat 5)

theorem shiftLeft_eq_ofInt (a b : UInt32) :
    a <<< (b &&& 31) = UInt32.ofInt (a.toNat * 2 ^ (b.toNat % 32)) := by
  rw [eq_comm, ofInt_eq_iff, UInt32.toNat_shiftLeft, toNat_and_31, Nat.mod_mod, Nat.shiftLeft_eq]
  norm_cast

theorem shiftRight_eq_ofInt (a b : UInt32) :
    a >>> (b &&& 31) = UInt32.ofInt (a.toNat / 2 ^ (b.toNat % 32)) := by
  rw [← ofInt_toNat (a >>> (b &&& 31)), UInt32.toNat_shiftRight, toNat_and_31, Nat.mod_mod,
    Nat.shiftRight_eq_div_pow]
  norm_cast

/-- The distance of an arithmetic shift, which the machine takes as a signed word. -/
theorem toNat_smod_32 {c : BitVec 32} (h : c.toNat < 32) : (c.smod 32#32).toNat = c.toNat := by
  have hmsb : c.msb = false := BitVec.msb_eq_false_iff_two_mul_lt.mpr (by omega)
  rw [BitVec.smod_eq, hmsb, show (32#32).msb = false by decide]
  exact Nat.mod_eq_of_lt h

theorem shiftRight_signed_eq_ofInt (a b : UInt32) :
    (a.toInt32 >>> (b &&& 31).toInt32).toUInt32 =
      UInt32.ofInt (signedValue a / 2 ^ (b.toNat % 32)) := by
  have hdistance : ((b &&& 31).toInt32.toBitVec.smod 32).toNat = b.toNat % 32 := by
    have hlt : (b &&& 31).toInt32.toBitVec.toNat < 32 :=
      (toNat_and_31 b).trans_lt (Nat.mod_lt _ (by decide))
    exact (toNat_smod_32 hlt).trans (toNat_and_31 b)
  have hvalue : (a.toInt32 >>> (b &&& 31).toInt32).toInt =
      signedValue a / 2 ^ (b.toNat % 32) := by
    rw [← Int32.toInt_toBitVec, Int32.toBitVec_shiftRight, BitVec.sshiftRight',
      BitVec.toInt_sshiftRight, hdistance, Int.shiftRight_eq_div_pow, Int32.toInt_toBitVec,
      toInt_toInt32]
    norm_cast
  rw [← hvalue, ofInt_toInt]

/-! ### Products -/

/-- The upper word of a 64-bit product is its quotient by `2 ^ 32`, rounded down. -/
theorem AluOp.upperWord_eq_ofInt (product : Int64) :
    upperWord product = UInt32.ofInt (product.toInt / 2 ^ 32) := by
  have hshift : (product >>> 32).toInt = product.toInt / 2 ^ 32 := by
    rw [← Int64.toInt_toBitVec, Int64.toBitVec_shiftRight, BitVec.sshiftRight',
      BitVec.toInt_sshiftRight, Int.shiftRight_eq_div_pow, Int64.toInt_toBitVec]
    rfl
  have htoNat : (product >>> 32).toBitVec.toNat = (product >>> 32).toUInt64.toNat := rfl
  rw [eq_comm, ofInt_eq_iff, upperWord, UInt64.toNat_toUInt32, ← hshift, ← htoNat,
    ← Int64.toInt_toBitVec, BitVec.toInt_eq_toNat_cond]
  split <;> omega

/-- A product of small factors is small. -/
theorem natAbs_mul_le {x y : Int} {j k : Nat} (hx : x.natAbs ≤ j) (hy : y.natAbs ≤ k) :
    (x * y).natAbs ≤ j * k := by
  rw [Int.natAbs_mul]
  exact Nat.mul_le_mul hx hy

theorem bmod_eq_self_of_natAbs {z : Int} (h : z.natAbs < 2 ^ 63) : z.bmod (2 ^ 64) = z :=
  Int.bmod_eq_of_le (by omega) (by omega)

/-- The product of two signed words fits 64 bits. -/
theorem toInt_mul_signed (a b : UInt32) :
    (a.toInt32.toInt64 * b.toInt32.toInt64).toInt = signedValue a * signedValue b := by
  have ha := signedValue_bounds a
  have hb := signedValue_bounds b
  have hle : (signedValue a * signedValue b).natAbs ≤ 2 ^ 31 * 2 ^ 31 :=
    natAbs_mul_le (by omega) (by omega)
  rw [Int64.toInt_mul, Int32.toInt_toInt64, Int32.toInt_toInt64, toInt_toInt32, toInt_toInt32]
  exact bmod_eq_self_of_natAbs (by omega)

/-- The product of a signed word and an unsigned one fits 64 bits. -/
theorem toInt_mul_mixed (a b : UInt32) :
    (a.toInt32.toInt64 * b.toUInt64.toInt64).toInt = signedValue a * b.toNat := by
  have ha := signedValue_bounds a
  have hb := b.toNat_lt
  have hcast : b.toUInt64.toInt64.toInt = b.toNat := by
    have htoNat : b.toUInt64.toBitVec.toNat = b.toNat := rfl
    change b.toUInt64.toBitVec.toInt = _
    rw [BitVec.toInt_eq_toNat_cond, htoNat]
    split <;> omega
  have hle : (signedValue a * (b.toNat : Int)).natAbs ≤ 2 ^ 31 * (2 ^ 32 - 1) :=
    natAbs_mul_le (by omega) (by omega)
  rw [Int64.toInt_mul, Int32.toInt_toInt64, toInt_toInt32, hcast]
  exact bmod_eq_self_of_natAbs (by omega)

/-- The product of two unsigned words fits 64 bits. -/
theorem toNat_mul_unsigned (a b : UInt32) :
    (a.toUInt64 * b.toUInt64).toNat = a.toNat * b.toNat := by
  have ha := a.toNat_lt
  have hb := b.toNat_lt
  have hle : a.toNat * b.toNat ≤ (2 ^ 32 - 1) * (2 ^ 32 - 1) :=
    Nat.mul_le_mul (by omega) (by omega)
  rw [UInt64.toNat_mul, UInt32.toNat_toUInt64, UInt32.toNat_toUInt64]
  exact Nat.mod_eq_of_lt (by omega)

theorem upperWord_unsigned_eq_ofInt (a b : UInt32) :
    ((a.toUInt64 * b.toUInt64) >>> 32).toUInt32 =
      UInt32.ofInt ((a.toNat * b.toNat : Int) / 2 ^ 32) := by
  have hshift : ((a.toUInt64 * b.toUInt64) >>> 32).toNat = a.toNat * b.toNat / 2 ^ 32 := by
    rw [UInt64.toNat_shiftRight, toNat_mul_unsigned, Nat.shiftRight_eq_div_pow]
    rfl
  rw [eq_comm, ofInt_eq_iff, UInt64.toNat_toUInt32, hshift]
  norm_cast

/-! ### Quotients -/

theorem divide_eq_ofInt (a b : UInt32) : AluOp.divide a b = UInt32.ofInt (AluOp.div.exact a b) := by
  by_cases hb : b = 0
  · subst hb
    rfl
  · have hne : b.toNat ≠ 0 := fun h => hb (UInt32.toNat_inj.mp h)
    rw [AluOp.divide, if_neg hb, AluOp.exact, if_neg hne, ← ofInt_toInt, Int32.toInt_div,
      toInt_toInt32, toInt_toInt32]
    -- Only `-2 ^ 31 / -1` leaves the signed words, and it wraps.
    exact ofInt_congr Int.bmod_emod

theorem remainder_eq_ofInt (a b : UInt32) :
    AluOp.remainder a b = UInt32.ofInt (AluOp.rem.exact a b) := by
  by_cases hb : b = 0
  · subst hb
    exact (ofInt_signedValue a).symm
  · have hne : b.toNat ≠ 0 := fun h => hb (UInt32.toNat_inj.mp h)
    rw [AluOp.remainder, if_neg hb, AluOp.exact, if_neg hne, ← ofInt_toInt, Int32.toInt_mod,
      toInt_toInt32, toInt_toInt32]

/-- A signed quotient fits its remainder, also where it leaves the signed words. -/
theorem div_mul_add_rem (a b : UInt32) :
    AluOp.div.exact a b * signedValue b + AluOp.rem.exact a b = signedValue a := by
  simp only [AluOp.exact]
  split
  · have hb : signedValue b = 0 := by
      unfold signedValue
      split <;> omega
    rw [hb, Int.mul_zero, Int.zero_add]
  · exact Int.tdiv_mul_add_tmod _ _

/-- An unsigned quotient fits its remainder. -/
theorem divu_mul_add_remu (a b : UInt32) :
    AluOp.divu.exact a b * b.toNat + AluOp.remu.exact a b = a.toNat := by
  simp only [AluOp.exact]
  split
  · rename_i hb
    rw [hb, Int.natCast_zero, Int.mul_zero, Int.zero_add]
  · exact Int.ediv_mul_add_emod _ _

/-! ### All operations -/

namespace AluOp

/-- Operations agree with the integers. -/
theorem eval_eq_ofInt (op : AluOp) (a b : UInt32) : op.eval a b = UInt32.ofInt (op.exact a b) := by
  have hzero : b.toNat = 0 ↔ b = 0 := UInt32.toNat_inj (b := 0)
  cases op with
  | add => simp only [eval, exact, UInt32.ofInt_add, ofInt_signedValue]
  | sub => simp only [eval, exact, ofInt_sub, ofInt_signedValue]
  | mul => simp only [eval, exact, UInt32.ofInt_mul, ofInt_signedValue]
  | sll => exact shiftLeft_eq_ofInt a b
  | srl => exact shiftRight_eq_ofInt a b
  | sra => exact shiftRight_signed_eq_ofInt a b
  | slt => simp only [eval, exact, ← flagWord_eq_ofInt, toInt32_lt_iff]
  | sltu => simp only [eval, exact, ← flagWord_eq_ofInt, UInt32.lt_iff_toNat_lt]
  | xor => simp only [eval, exact, ← UInt32.toNat_xor, ofInt_toNat]
  | or => simp only [eval, exact, ← UInt32.toNat_or, ofInt_toNat]
  | and => simp only [eval, exact, ← UInt32.toNat_and, ofInt_toNat]
  | mulh => simp only [eval, exact, upperWord_eq_ofInt, toInt_mul_signed]
  | mulhsu => simp only [eval, exact, upperWord_eq_ofInt, toInt_mul_mixed]
  | mulhu => exact upperWord_unsigned_eq_ofInt a b
  | div => exact divide_eq_ofInt a b
  | rem => exact remainder_eq_ofInt a b
  | divu =>
    simp only [eval, exact, hzero]
    split
    · rfl
    · rw [← ofInt_toNat (a / b), UInt32.toNat_div]
      norm_cast
  | remu =>
    simp only [eval, exact, hzero]
    split
    · exact (ofInt_toNat a).symm
    · rw [← ofInt_toNat (a % b), UInt32.toNat_mod]
      norm_cast

/-- What holds of the operations on two operands: results are the words of the integers, the 64-bit
products are the products of the integers, and quotients fit their remainders. -/
structure Exact (a b : UInt32) : Prop where
  eval_eq : ∀ op : AluOp, op.eval a b = UInt32.ofInt (op.exact a b)
  holds_eq : ∀ c : Condition, c.holds a b = c.exact a b
  product_signed :
    (a.toInt32.toInt64 * b.toInt32.toInt64).toInt = signedValue a * signedValue b
  product_mixed : (a.toInt32.toInt64 * b.toUInt64.toInt64).toInt = signedValue a * b.toNat
  product_unsigned : (a.toUInt64 * b.toUInt64).toNat = a.toNat * b.toNat
  div_rem : AluOp.div.eval a b * b + AluOp.rem.eval a b = a
  divu_remu : AluOp.divu.eval a b * b + AluOp.remu.eval a b = a

theorem exact_operations (a b : UInt32) : Exact a b where
  eval_eq op := op.eval_eq_ofInt a b
  holds_eq c := c.holds_eq_exact a b
  product_signed := toInt_mul_signed a b
  product_mixed := toInt_mul_mixed a b
  product_unsigned := toNat_mul_unsigned a b
  div_rem := by
    have h := congrArg UInt32.ofInt (div_mul_add_rem a b)
    rwa [UInt32.ofInt_add, UInt32.ofInt_mul, ofInt_signedValue, ofInt_signedValue,
      ← eval_eq_ofInt, ← eval_eq_ofInt] at h
  divu_remu := by
    have h := congrArg UInt32.ofInt (divu_mul_add_remu a b)
    rwa [UInt32.ofInt_add, UInt32.ofInt_mul, ofInt_toNat, ofInt_toNat, ← eval_eq_ofInt,
      ← eval_eq_ofInt] at h

end AluOp

example : (AluOp.div.eval 0x80000000 0xffffffff, AluOp.rem.eval 0x80000000 0xffffffff) =
    (0x80000000, 0) := by decide

/-! ### Instructions -/

namespace Instruction

/-- What an instruction computes for its destination, over the integers. -/
def exactValue (inst : Instruction) (cpu : Cpu) : Int :=
  match inst with
  | .upper .lui _ imm => imm.toInt
  | .upper .auipc _ imm => cpu.pc.toNat + imm.toInt
  | .jal .. | .jalr .. => cpu.pc.toNat + 4
  | .immediate op _ rs1 imm => op.alu.exact (cpu.reg rs1) imm.toUInt32
  | .register op _ rs1 rs2 => op.exact (cpu.reg rs1) (cpu.reg rs2)
  | _ => 0

/-- What an instruction computes for the program counter, over the integers: an indirect jump goes
to an even address. -/
def exactTarget (inst : Instruction) (cpu : Cpu) : Int :=
  match inst with
  | .jal _ imm => cpu.pc.toNat + imm.toInt
  | .jalr _ rs1 imm => ((cpu.reg rs1).toNat + imm.toInt) / 2 * 2
  | .branch c rs1 rs2 imm =>
    if c.exact (cpu.reg rs1) (cpu.reg rs2) then cpu.pc.toNat + imm.toInt else cpu.pc.toNat + 4
  | _ => cpu.pc.toNat + 4

end Instruction

/-- The machine after an instruction, by the integers: both results come from the registers before
it. -/
def Machine.execute (inst : Instruction) (m : Machine) : Machine :=
  (m.setReg inst.rd (UInt32.ofInt (inst.exactValue m.cpu))).jump
    (UInt32.ofInt (inst.exactTarget m.cpu))

theorem evenTarget_eq_ofInt (base : UInt32) (imm : Int32) :
    (base + imm.toUInt32) &&& ~~~1 = UInt32.ofInt ((base.toNat + imm.toInt) / 2 * 2) := by
  have hmask : ((base + imm.toUInt32) &&& ~~~1).toNat = (base + imm.toUInt32).toNat / 2 * 2 :=
    (toNat_and_highBits (k := 1) (by decide) _).trans (by omega)
  have hsum : ((base.toNat : Int) + imm.toInt) % 2 ^ 32 = (base + imm.toUInt32).toNat := by
    rw [← ofInt_eq_iff, UInt32.ofInt_add, ofInt_toNat, ofInt_toInt]
  rw [eq_comm, ofInt_eq_iff, hmask]
  omega

theorem link_eq_ofInt (pc : UInt32) : pc + 4 = UInt32.ofInt (pc.toNat + 4) := by
  rw [UInt32.ofInt_add, ofInt_toNat]
  rfl

theorem target_eq_ofInt (pc : UInt32) (imm : Int32) :
    pc + imm.toUInt32 = UInt32.ofInt (pc.toNat + imm.toInt) := by
  rw [UInt32.ofInt_add, ofInt_toNat, ofInt_toInt]

theorem Machine.pc_setReg (m : Machine) (r : Reg) (value : UInt32) :
    (m.setReg r value).cpu.pc = m.cpu.pc := by
  unfold setReg Cpu.setReg
  split <;> rfl

/-- The effect of an instruction without memory access or system call agrees with the integers. -/
theorem Instruction.effect_eq_execute {inst : Instruction}
    (h : inst.computes = true ∨ inst.moves = true) (params : Params) (m : Machine) :
    inst.effect params m = .ok (.finish .next (m.execute inst)) := by
  cases inst with
  | upper op rd imm =>
    cases op <;> simp only [effect, Machine.execute, Instruction.rd, exactValue, exactTarget,
      ofInt_toInt, Machine.advance, Machine.pc_setReg, link_eq_ofInt, target_eq_ofInt]
  | jal rd imm =>
    simp only [effect, Machine.execute, Instruction.rd, exactValue, exactTarget, link_eq_ofInt,
      target_eq_ofInt]
  | jalr rd rs1 imm =>
    simp only [effect, Machine.execute, Instruction.rd, exactValue, exactTarget, link_eq_ofInt,
      evenTarget_eq_ofInt]
  | branch c rs1 rs2 imm =>
    simp only [effect, Machine.execute, Instruction.rd, exactTarget, c.holds_eq_exact,
      Machine.advance, link_eq_ofInt, target_eq_ofInt]
    split <;> rfl
  | immediate op rd rs1 imm | register op rd rs1 rs2 =>
    simp only [effect, Machine.execute, Instruction.rd, exactValue, exactTarget, Machine.advance,
      Machine.pc_setReg, link_eq_ofInt, AluOp.eval_eq_ofInt]
  | fence =>
    simp only [effect, Machine.execute, Instruction.rd, exactTarget, Machine.advance, link_eq_ofInt]
    rfl
  | load | store | ecall | ebreak => simp [computes, moves] at h

/-- **Arithmetic over the integers.** On all operands the results of operations and conditions are
those of the integers, modulo `2 ^ 32`, and no product outgrows its 64 bits. An instruction without
memory access or system call writes these results, whichever of its registers are equal, and a step
at such an instruction does nothing else. -/
theorem Machine.step_eq_execute :
    (∀ a b : UInt32, AluOp.Exact a b) ∧
    (∀ (inst : Instruction) (params : Params) (m : Machine),
      inst.computes = true ∨ inst.moves = true →
        inst.effect params m = .ok (.finish .next (m.execute inst))) ∧
    ∀ (σ : Type) (bus : Bus σ) (params : Params) (m : Machine) (s : σ) (inst : Instruction),
      canFetch params m.cpu.pc = true →
      Instruction.decode (bus.fetch s m.cpu.pc).1 = some inst →
      inst.computes = true ∨ inst.moves = true →
        m.step bus params s = ⟨.ok .next, m.execute inst, (bus.fetch s m.cpu.pc).2⟩ := by
  refine ⟨AluOp.exact_operations,
    fun inst params m hinst => inst.effect_eq_execute hinst params m, ?_⟩
  intro σ bus params m s inst hf hdecode hinst
  have hplan : m.plan params (bus.fetch s m.cpu.pc).1 =
      .ok (.finish .next (m.execute inst)) := by
    rw [plan, hdecode]
    exact inst.effect_eq_execute hinst params m
  exact step_of_plan_ok hf hplan

namespace EqualOperands

/-- A machine with `-1` in `a0`, about to run two instructions that overwrite their operand. -/
def machine : Machine := ⟨(⟨0x1000, .replicate 32 0⟩ : Cpu).setReg .a0 0xffffffff, {}⟩

/-- The instructions, one after the other. -/
def words : WordMap := (WordMap.set {} 0x1000 0x02a52533).set 0x1004 0x00350567

/-- The upper word of the product of `a0`, read with a sign, with `a0`, read without. -/
def multiply : Instruction := .register .mulhsu .a0 .a0 .a0

/-- A jump past the last address. -/
def leap : Instruction := .jalr .a0 .a0 3

end EqualOperands

open EqualOperands in
/-- Both results come from the operands before the instruction, and both wrap. -/
theorem Machine.step_eq_execute_equalOperands :
    (machine.step WordMap.bus {} words).machine = machine.execute multiply ∧
    (machine.execute multiply).cpu.reg .a0 = 0xffffffff ∧
    ((machine.execute multiply).step WordMap.bus {} words).machine =
      (machine.execute multiply).execute leap ∧
    ((machine.execute multiply).execute leap).cpu.reg .a0 = 0x1008 ∧
    ((machine.execute multiply).execute leap).cpu.pc = 2 := by
  have hmul := Machine.step_eq_execute.2.2 _ WordMap.bus {} machine words multiply
    (by decide) (by decide +kernel) (.inl rfl)
  have hleap := Machine.step_eq_execute.2.2 _ WordMap.bus {} (machine.execute multiply) words leap
    (by decide +kernel) (by decide +kernel) (.inl rfl)
  exact ⟨congrArg StepResult.machine hmul, by decide +kernel, congrArg StepResult.machine hleap,
    by decide +kernel, by decide +kernel⟩

end ReplayVM
