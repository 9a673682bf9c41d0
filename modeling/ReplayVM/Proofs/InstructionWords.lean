import Mathlib.Data.Int.ModEq
import ReplayVM.Isa.Assembler
import ReplayVM.Isa.Decode
import ReplayVM.Proofs.IntegerArithmetic

/-!
# Words of instructions

An instruction word is a row of fields, in one of six layouts. The encoder packs the fields and the
decoder slices the word, so both agree as soon as a word is known by its slices. An immediate is
spread over several fields, in an order of its own in each layout; put together again, these are its
low bits, read with a sign unless they are the distance of a shift. The decoder thus gives back
every instruction whose immediate its layout can hold, the other words of the base instruction set
are those of `fence`, and of an immediate that does not fit, the residue is left.

## Main definitions

* `packed`, `slices`: the number with given fields, and the fields of a word.
* `ImmediateField`, `Instruction.immediateField`: the place of an immediate, and what fits it.
* `Instruction.Encodable`, `Instruction.fitted`: instructions that their layout can hold.
* `Instruction.encoders`, `Instruction.HasOperands`: the mnemonics of the assembler, and
  instructions with the operands that are written behind them.

## Main results

* `ofNat_eq_iff_slices`: a word is known by its slices.
* `Instruction.decode_of_encode`, `Instruction.encode_of_decode`: decoder and encoder.
* `Instruction.decode_inverse_encode`: they are inverse, and the assembler is read back.
-/

namespace ReplayVM

/-! ### Fields of words -/

theorem slice_eq (w : UInt32) (low length : Nat) :
    slice w low length = w.toNat / 2 ^ low % 2 ^ length := by
  rw [slice, Nat.shiftRight_eq_div_pow, Nat.one_shiftLeft]

theorem slice_lt (w : UInt32) (low length : Nat) : slice w low length < 2 ^ length := by
  rw [slice_eq]
  exact Nat.mod_lt _ (Nat.two_pow_pos length)

/-- Bits and those behind them. -/
theorem slice_add (w : UInt32) (low a b : Nat) :
    slice w low (a + b) = slice w low a + slice w (low + a) b * 2 ^ a := by
  rw [slice_eq, slice_eq, slice_eq, Nat.pow_add 2 a b, Nat.mod_mul, Nat.div_div_eq_div_mul,
    Nat.pow_add 2 low a, Nat.mul_comm (2 ^ a)]

theorem slice_all (w : UInt32) : slice w 0 32 = w.toNat := by
  rw [slice_eq, Nat.pow_zero, Nat.div_one, Nat.mod_eq_of_lt w.toNat_lt]

/-- The number with the given fields: their lengths and values, lowest first. -/
def packed : List (Nat × Nat) → Nat
  | [] => 0
  | (length, value) :: fields => value + packed fields * 2 ^ length

/-- The numbers in the fields of a word, whose lengths are given from a bit on. -/
def slices (w : UInt32) : (low : Nat) → List Nat → List Nat
  | _, [] => []
  | low, length :: lengths => slice w low length :: slices w (low + length) lengths

theorem add_mul_inj {a b p q r : Nat} (ha : a < p) (hb : b < p) :
    a + q * p = b + r * p ↔ a = b ∧ q = r := by
  constructor
  · intro h
    have hmod := congrArg (· % p) h
    simp only [Nat.add_mul_mod_self_right, Nat.mod_eq_of_lt ha, Nat.mod_eq_of_lt hb] at hmod
    subst hmod
    exact ⟨rfl, Nat.eq_of_mul_eq_mul_right (by omega) (Nat.add_left_cancel h)⟩
  · rintro ⟨rfl, rfl⟩
    rfl

theorem packed_lt {fields : List (Nat × Nat)} (h : ∀ f ∈ fields, f.2 < 2 ^ f.1) :
    packed fields < 2 ^ (fields.map Prod.fst).sum := by
  induction fields with
  | nil => exact Nat.one_pos
  | cons f fields ih =>
    obtain ⟨hf, hfields⟩ := List.forall_mem_cons.mp h
    have hrest := Nat.mul_le_mul_right (2 ^ f.1) (ih hfields)
    rw [Nat.succ_mul] at hrest
    rw [List.map_cons, List.sum_cons, Nat.pow_add, packed, Nat.mul_comm (2 ^ f.1)]
    exact Nat.lt_of_lt_of_le (by omega) hrest

theorem packed_eq_slice_iff {fields : List (Nat × Nat)} (h : ∀ f ∈ fields, f.2 < 2 ^ f.1)
    (w : UInt32) (low : Nat) :
    packed fields = slice w low (fields.map Prod.fst).sum ↔
      slices w low (fields.map Prod.fst) = fields.map Prod.snd := by
  induction fields generalizing low with
  | nil => simp [packed, slices, slice_eq, Nat.mod_one]
  | cons f fields ih =>
    obtain ⟨hf, hfields⟩ := List.forall_mem_cons.mp h
    rw [List.map_cons, List.map_cons, List.sum_cons, slice_add, packed, slices, List.cons.injEq,
      add_mul_inj hf (slice_lt _ _ _), ih hfields, eq_comm]

/-- A word is known by its slices. -/
theorem ofNat_eq_iff_slices {n : Nat} (fields : List (Nat × Nat)) (hn : n = packed fields)
    (hfields : ∀ f ∈ fields, f.2 < 2 ^ f.1) (hsum : (fields.map Prod.fst).sum = 32) (w : UInt32) :
    UInt32.ofNat n = w ↔ slices w 0 (fields.map Prod.fst) = fields.map Prod.snd := by
  have hlt := packed_lt hfields
  rw [hsum] at hlt
  rw [hn, ← packed_eq_slice_iff hfields, hsum, slice_all, ← UInt32.toNat_inj,
    UInt32.toNat_ofNat_of_lt' hlt]

theorem Reg.slice_eq_val (w : UInt32) (low : Nat) :
    slice w low 5 = (Reg.ofNat (slice w low 5)).val :=
  (Nat.mod_eq_of_lt (slice_lt w low 5)).symm

@[simp] theorem Reg.ofNat_val (r : Reg) : Reg.ofNat r.val = r := Fin.ofNat_val_eq_self r

/-! ### Bits of immediates -/

/-- Some bits of an integer depend on its residue modulo a power of two above them. -/
theorem ediv_emod_two_pow_congr {x y : Int} {low length size : Nat} (h : low + length ≤ size)
    (hxy : x % 2 ^ size = y % 2 ^ size) :
    x / 2 ^ low % 2 ^ length = y / 2 ^ low % 2 ^ length := by
  obtain ⟨k, rfl⟩ := Nat.exists_eq_add_of_le h
  obtain ⟨q, hq⟩ := Int.ModEq.dvd hxy
  have hy : y = x + 2 ^ low * (2 ^ length * (2 ^ k * q)) := by
    rw [← mul_assoc, ← mul_assoc, ← pow_add, ← pow_add]
    omega
  rw [hy, Int.add_mul_ediv_left _ _ (pow_ne_zero low two_ne_zero), Int.add_mul_emod_self_left]

/-- The bits of an immediate are those of its value in two's complement. -/
theorem slice_toUInt32 (imm : Int32) (low length : Nat) (h : low + length ≤ 32) :
    (slice imm.toUInt32 low length : Int) = imm.toInt / 2 ^ low % 2 ^ length := by
  have hmod := signedValue_emod imm.toUInt32
  rw [signedValue_toUInt32] at hmod
  rw [slice_eq]
  push_cast
  exact ediv_emod_two_pow_congr h (by omega)

/-- The signed reading of a number of some bits is its residue nearest to zero. -/
theorem signExtend_eq_ofInt {v size : Nat} (hv : v < 2 ^ size) (hpos : 0 < size) :
    signExtend v size = Int32.ofInt ((v : Int).bmod (2 ^ size)) := by
  obtain ⟨k, rfl⟩ := Nat.exists_eq_succ_of_ne_zero (Nat.pos_iff_ne_zero.mp hpos)
  have hmod : (v : Int) % ((2 ^ (k + 1) : Nat) : Int) = v :=
    Int.emod_eq_of_lt (Int.natCast_nonneg _) (Int.ofNat_lt.mpr hv)
  have hhalf : (((2 ^ (k + 1) : Nat) : Int) + 1) / 2 = ((2 ^ k : Nat) : Int) := by
    rw [Nat.pow_succ]
    omega
  rw [signExtend, Int.bmod_def, hmod, hhalf, Nat.succ_eq_add_one, Nat.add_sub_cancel,
    Nat.one_shiftLeft]
  by_cases htop : 2 ^ k ≤ v
  · rw [Nat.testBit_of_two_pow_le_and_two_pow_add_one_gt htop hv, if_pos rfl, if_neg (by omega)]
  · rw [Nat.testBit_lt_two_pow (Nat.lt_of_not_le htop), if_neg (by decide), if_pos (by omega)]
    rfl

theorem ofInt32_bmod (x : Int) : Int32.ofInt (x.bmod (2 ^ 32)) = Int32.ofInt x := by
  rw [← Int32.toInt_inj, Int32.toInt_ofInt, Int32.toInt_ofInt]
  exact Int.bmod_bmod

/-- Without a sign, a number is read as if it had 32 bits. -/
theorem ofNat_eq_signExtend {v : Nat} (hv : v < 2 ^ 32) : Int32.ofNat v = signExtend v 32 := by
  rw [signExtend_eq_ofInt hv (by decide), ofInt32_bmod]
  rfl

/-- The signed reading of a number has the bits of the number. -/
theorem slice_signExtend {v size low length : Nat} (hv : v < 2 ^ size) (hpos : 0 < size)
    (hsize : size ≤ 32) (h : low + length ≤ size) :
    slice (signExtend v size).toUInt32 low length = v / 2 ^ low % 2 ^ length := by
  have hresidue :
      ((v : Int).bmod (2 ^ size)).bmod Int32.size % 2 ^ size = (v : Int) % 2 ^ size := by
    have hdvd : ((2 ^ size : Nat) : Int) ∣ (Int32.size : Int) :=
      Int.natCast_dvd_natCast.mpr (Nat.pow_dvd_pow 2 (n := 32) hsize)
    have h32 : ((v : Int).bmod (2 ^ size)).bmod Int32.size % ((2 ^ size : Nat) : Int) =
        (v : Int).bmod (2 ^ size) % ((2 ^ size : Nat) : Int) := by
      rw [← Int.emod_emod_of_dvd _ hdvd, Int.bmod_emod, Int.emod_emod_of_dvd _ hdvd]
    rw [Int.bmod_emod] at h32
    exact_mod_cast h32
  have hslice := slice_toUInt32 (signExtend v size) low length (by omega)
  rw [signExtend_eq_ofInt hv hpos, Int32.toInt_ofInt,
    ediv_emod_two_pow_congr h hresidue, ← signExtend_eq_ofInt hv hpos] at hslice
  exact_mod_cast hslice

/-- The bits of an immediate from one on, put back at their place and read with a sign. -/
theorem signExtend_slice (imm : Int32) (low length : Nat) (h : low + length ≤ 32)
    (hpos : 0 < low + length) :
    signExtend (slice imm.toUInt32 low length * 2 ^ low) (low + length) =
      Int32.ofInt ((imm.toInt / 2 ^ low * 2 ^ low).bmod (2 ^ (low + length))) := by
  have hlt : slice imm.toUInt32 low length * 2 ^ low < 2 ^ (low + length) := by
    rw [Nat.pow_add, Nat.mul_comm]
    exact Nat.mul_lt_mul_of_pos_left (slice_lt _ _ _) (Nat.two_pow_pos low)
  have hvalue : ((slice imm.toUInt32 low length * 2 ^ low : Nat) : Int) =
      imm.toInt / 2 ^ low * 2 ^ low % ((2 ^ (low + length) : Nat) : Int) := by
    push_cast
    rw [slice_toUInt32 imm low length h, pow_add, mul_comm, mul_comm (_ / _),
      Int.mul_emod_mul_of_pos]
    exact pow_pos two_pos low
  rw [signExtend_eq_ofInt hlt hpos, hvalue, Int.emod_bmod]

/-! ### Places of immediates -/

/-- The place of an immediate: its number of bits, how many of them at the low end are zero and not
written, and whether the top one is a sign. -/
structure ImmediateField where
  size : Nat
  low : Nat
  signed : Bool
  low_le : low ≤ size := by decide
  value_le : (if signed then size - 1 else size) ≤ 31 := by decide
  sign_pos : signed = true → 0 < size := by decide

namespace ImmediateField

/-- The integers that a place can hold. -/
structure Holds (f : ImmediateField) (x : Int) : Prop where
  dvd : 2 ^ f.low ∣ x
  ge : (if f.signed then -2 ^ (f.size - 1) else 0) ≤ x
  lt : x < if f.signed then 2 ^ (f.size - 1) else 2 ^ f.size

/-- What a place keeps of an integer: the residue of its number of bits, without those at the low
end. -/
def reduce (f : ImmediateField) (x : Int) : Int :=
  let kept := x / 2 ^ f.low * 2 ^ f.low
  if f.signed then kept.bmod (2 ^ f.size) else kept % 2 ^ f.size

variable {f : ImmediateField} {x : Int}

theorem two_pow_half {size : Nat} (h : 0 < size) : (2 : Int) ^ size = 2 * 2 ^ (size - 1) := by
  rw [← pow_succ', Nat.sub_add_cancel h]

theorem holds_reduce (f : ImmediateField) (x : Int) : f.Holds (f.reduce x) := by
  have hkept : (2 : Int) ^ f.low ∣ x / 2 ^ f.low * 2 ^ f.low := Dvd.intro_left _ rfl
  have hmod : (2 : Int) ^ f.low ∣ x / 2 ^ f.low * 2 ^ f.low % 2 ^ f.size := by
    rw [Int.emod_def]
    exact Int.dvd_sub hkept (Dvd.dvd.mul_right (pow_dvd_pow 2 f.low_le) _)
  unfold reduce
  by_cases hsigned : f.signed = true
  · have hhalf := two_pow_half (f.sign_pos hsigned)
    refine ⟨?_, ?_, ?_⟩ <;> simp only [if_pos hsigned]
    · rw [Int.bmod_def]
      push_cast
      split
      · exact hmod
      · exact Int.dvd_sub hmod (pow_dvd_pow 2 f.low_le)
    · have := Int.le_bmod (x := x / 2 ^ f.low * 2 ^ f.low) (Nat.two_pow_pos f.size)
      push_cast at this
      omega
    · have := Int.bmod_lt (x := x / 2 ^ f.low * 2 ^ f.low) (Nat.two_pow_pos f.size)
      push_cast at this
      omega
  · refine ⟨?_, ?_, ?_⟩ <;> simp only [if_neg hsigned]
    · exact hmod
    · exact Int.emod_nonneg _ (pow_ne_zero _ two_ne_zero)
    · exact Int.emod_lt_of_pos _ (pow_pos two_pos _)

theorem Holds.reduce_eq (h : f.Holds x) : f.reduce x = x := by
  obtain ⟨hdvd, hge, hlt⟩ := h
  unfold reduce
  rw [Int.ediv_mul_cancel hdvd]
  by_cases hsigned : f.signed = true
  · have hhalf := two_pow_half (f.sign_pos hsigned)
    simp only [if_pos hsigned] at hge hlt ⊢
    exact Int.bmod_eq_of_le (by push_cast; omega) (by push_cast; omega)
  · simp only [if_neg hsigned] at hge hlt ⊢
    exact Int.emod_eq_of_lt hge hlt

theorem Holds.toInt_ofInt (h : f.Holds x) : (Int32.ofInt x).toInt = x := by
  have hpow : (2 : Int) ^ (if f.signed then f.size - 1 else f.size) ≤ 2 ^ 31 :=
    pow_le_pow_right₀ one_le_two f.value_le
  obtain ⟨-, hge, hlt⟩ := h
  by_cases hsigned : f.signed = true
  · simp only [if_pos hsigned] at hge hlt hpow
    exact Int32.toInt_ofInt_of_le (by omega) (by omega)
  · simp only [if_neg hsigned] at hge hlt hpow
    exact Int32.toInt_ofInt_of_le (by omega) (by omega)

/-- A place looks at no more of an integer than its residue. -/
theorem reduce_congr {x y : Int} (h : x % 2 ^ f.size = y % 2 ^ f.size) :
    f.reduce x = f.reduce y := by
  have hsize := Nat.add_sub_cancel' f.low_le
  have hkept (z : Int) : z / 2 ^ f.low * 2 ^ f.low % 2 ^ f.size =
      z / 2 ^ f.low % 2 ^ (f.size - f.low) * 2 ^ f.low := by
    conv_lhs => rw [← hsize, pow_add, mul_comm,
      Int.mul_emod_mul_of_pos _ _ (pow_pos two_pos _), mul_comm]
  have hmod : x / 2 ^ f.low * 2 ^ f.low % 2 ^ f.size =
      y / 2 ^ f.low * 2 ^ f.low % 2 ^ f.size := by
    rw [hkept, hkept, ediv_emod_two_pow_congr (Nat.le_of_eq hsize) h]
  have hbmod : (x / 2 ^ f.low * 2 ^ f.low).bmod (2 ^ f.size) =
      (y / 2 ^ f.low * 2 ^ f.low).bmod (2 ^ f.size) := by
    rw [← Int.emod_bmod, ← Int.emod_bmod (y / 2 ^ f.low * 2 ^ f.low)]
    push_cast
    rw [hmod]
  simp only [reduce, hmod, hbmod]

/-- A place keeps the same of an integer when it is first wrapped around to a word. -/
theorem toInt_reduce_ofInt (f : ImmediateField) (x : Int) :
    (Int32.ofInt (f.reduce (Int32.ofInt x).toInt)).toInt = f.reduce x := by
  have hsize : f.size ≤ 32 := by
    have hvalue := f.value_le
    split at hvalue <;> omega
  have hwrap : (Int32.ofInt x).toInt % 2 ^ f.size = x % 2 ^ f.size := by
    have hdvd : (2 : Int) ^ f.size ∣ (Int32.size : Int) := pow_dvd_pow 2 hsize
    rw [Int32.toInt_ofInt, ← Int.emod_emod_of_dvd _ hdvd, Int.bmod_emod,
      Int.emod_emod_of_dvd _ hdvd]
  rw [(holds_reduce _ _).toInt_ofInt, reduce_congr hwrap]

/-! ### Places in the layouts -/

/-- The upper twenty bits of a word. -/
def upper : ImmediateField := { size := 32, low := 12, signed := true }

/-- An even offset of a jump. -/
def jump : ImmediateField := { size := 21, low := 1, signed := true }

/-- An even offset of a branch. -/
def branch : ImmediateField := { size := 13, low := 1, signed := true }

/-- A summand or an operand. -/
def short : ImmediateField := { size := 12, low := 0, signed := true }

/-- The distance of a shift. -/
def distance : ImmediateField := { size := 5, low := 0, signed := false }

/-- No immediate, which counts as zero. -/
def absent : ImmediateField := { size := 0, low := 0, signed := false }

end ImmediateField

/-- Whether an operation has the distance of a shift for its immediate. -/
def ImmOp.isShift : ImmOp → Bool
  | .slli | .srli | .srai => true
  | .addi | .slti | .sltiu | .xori | .ori | .andi => false

namespace Instruction

/-- The place of the immediate of an instruction; one without immediate has no bits for it. -/
def immediateField : Instruction → ImmediateField
  | .upper .. => .upper
  | .jal .. => .jump
  | .branch .. => .branch
  | .jalr .. | .load .. | .store .. => .short
  | .immediate op .. => if op.isShift then .distance else .short
  | .register .. | .fence | .ecall | .ebreak => .absent

/-- An instruction whose layout can hold its immediate. -/
def Encodable (i : Instruction) : Prop := i.immediateField.Holds i.imm.toInt

/-- The instruction with another immediate, where it has one. -/
def withImm (i : Instruction) (imm : Int32) : Instruction :=
  match i with
  | .upper op rd _ => .upper op rd imm
  | .jal rd _ => .jal rd imm
  | .jalr rd rs1 _ => .jalr rd rs1 imm
  | .branch condition rs1 rs2 _ => .branch condition rs1 rs2 imm
  | .load kind rd rs1 _ => .load kind rd rs1 imm
  | .store kind rs1 rs2 _ => .store kind rs1 rs2 imm
  | .immediate op rd rs1 _ => .immediate op rd rs1 imm
  | .register .. | .fence | .ecall | .ebreak => i

/-- The instruction with what its layout keeps of its immediate. -/
def fitted (i : Instruction) : Instruction :=
  i.withImm (Int32.ofInt (i.immediateField.reduce i.imm.toInt))

/-! ### Layouts -/

variable {w : UInt32} {imm : Int32} {rd rs1 rs2 : Reg} {funct7 funct3 opcode : Nat}

theorem immSlice_lt (imm : Int32) (low length : Nat) : immSlice imm low length < 2 ^ length :=
  slice_lt imm.toUInt32 low length

theorem encodeR_eq_iff (h7 : funct7 < 2 ^ 7) (h3 : funct3 < 2 ^ 3) (ho : opcode < 2 ^ 7) :
    encodeR funct7 rs2 rs1 funct3 rd opcode = w ↔
      slice w 0 7 = opcode ∧ slice w 7 5 = rd.val ∧ slice w 12 3 = funct3 ∧
        slice w 15 5 = rs1.val ∧ slice w 20 5 = rs2.val ∧ slice w 25 7 = funct7 := by
  refine (ofNat_eq_iff_slices
    [(7, opcode), (5, rd), (3, funct3), (5, rs1), (5, rs2), (7, funct7)]
    (by simp only [packed, Nat.shiftLeft_eq]; omega) (by simp; omega) rfl w).trans ?_
  simp only [slices, List.map, List.cons.injEq, and_true, Nat.reduceAdd]

theorem encodeI_eq_iff (h3 : funct3 < 2 ^ 3) (ho : opcode < 2 ^ 7) :
    encodeI imm rs1 funct3 rd opcode = w ↔
      slice w 0 7 = opcode ∧ slice w 7 5 = rd.val ∧ slice w 12 3 = funct3 ∧
        slice w 15 5 = rs1.val ∧ slice w 20 12 = immSlice imm 0 12 := by
  have himm := immSlice_lt imm 0 12
  refine (ofNat_eq_iff_slices
    [(7, opcode), (5, rd), (3, funct3), (5, rs1), (12, immSlice imm 0 12)]
    (by simp only [packed, Nat.shiftLeft_eq]; omega) (by simp; omega) rfl w).trans ?_
  simp only [slices, List.map, List.cons.injEq, and_true, Nat.reduceAdd]

theorem encodeShift_eq_iff (h7 : funct7 < 2 ^ 7) (h3 : funct3 < 2 ^ 3) (ho : opcode < 2 ^ 7) :
    encodeShift funct7 imm rs1 funct3 rd opcode = w ↔
      slice w 0 7 = opcode ∧ slice w 7 5 = rd.val ∧ slice w 12 3 = funct3 ∧
        slice w 15 5 = rs1.val ∧ slice w 20 5 = immSlice imm 0 5 ∧ slice w 25 7 = funct7 := by
  have himm := immSlice_lt imm 0 5
  refine (ofNat_eq_iff_slices
    [(7, opcode), (5, rd), (3, funct3), (5, rs1), (5, immSlice imm 0 5), (7, funct7)]
    (by simp only [packed, Nat.shiftLeft_eq]; omega) (by simp; omega) rfl w).trans ?_
  simp only [slices, List.map, List.cons.injEq, and_true, Nat.reduceAdd]

theorem encodeS_eq_iff (h3 : funct3 < 2 ^ 3) (ho : opcode < 2 ^ 7) :
    encodeS imm rs2 rs1 funct3 opcode = w ↔
      slice w 0 7 = opcode ∧ slice w 7 5 = immSlice imm 0 5 ∧ slice w 12 3 = funct3 ∧
        slice w 15 5 = rs1.val ∧ slice w 20 5 = rs2.val ∧ slice w 25 7 = immSlice imm 5 7 := by
  have hlow := immSlice_lt imm 0 5
  have hhigh := immSlice_lt imm 5 7
  refine (ofNat_eq_iff_slices
    [(7, opcode), (5, immSlice imm 0 5), (3, funct3), (5, rs1), (5, rs2),
      (7, immSlice imm 5 7)]
    (by simp only [packed, Nat.shiftLeft_eq]; omega) (by simp; omega) rfl w).trans ?_
  simp only [slices, List.map, List.cons.injEq, and_true, Nat.reduceAdd]

theorem encodeB_eq_iff (h3 : funct3 < 2 ^ 3) (ho : opcode < 2 ^ 7) :
    encodeB imm rs2 rs1 funct3 opcode = w ↔
      slice w 0 7 = opcode ∧ slice w 7 1 = immSlice imm 11 1 ∧ slice w 8 4 = immSlice imm 1 4 ∧
        slice w 12 3 = funct3 ∧ slice w 15 5 = rs1.val ∧ slice w 20 5 = rs2.val ∧
          slice w 25 6 = immSlice imm 5 6 ∧ slice w 31 1 = immSlice imm 12 1 := by
  have h11 := immSlice_lt imm 11 1
  have h1 := immSlice_lt imm 1 4
  have h5 := immSlice_lt imm 5 6
  have h12 := immSlice_lt imm 12 1
  refine (ofNat_eq_iff_slices
    [(7, opcode), (1, immSlice imm 11 1), (4, immSlice imm 1 4), (3, funct3), (5, rs1),
      (5, rs2), (6, immSlice imm 5 6), (1, immSlice imm 12 1)]
    (by simp only [packed, Nat.shiftLeft_eq]; omega) (by simp; omega) rfl w).trans ?_
  simp only [slices, List.map, List.cons.injEq, and_true, Nat.reduceAdd]

theorem encodeU_eq_iff (ho : opcode < 2 ^ 7) :
    encodeU imm rd opcode = w ↔ slice w 0 7 = opcode ∧ slice w 7 5 = rd.val ∧
      slice w 12 20 = immSlice imm 12 20 := by
  have himm := immSlice_lt imm 12 20
  refine (ofNat_eq_iff_slices
    [(7, opcode), (5, rd), (20, immSlice imm 12 20)]
    (by simp only [packed, Nat.shiftLeft_eq]; omega) (by simp; omega) rfl w).trans ?_
  simp only [slices, List.map, List.cons.injEq, and_true, Nat.reduceAdd]

theorem encodeJ_eq_iff (ho : opcode < 2 ^ 7) :
    encodeJ imm rd opcode = w ↔
      slice w 0 7 = opcode ∧ slice w 7 5 = rd.val ∧ slice w 12 8 = immSlice imm 12 8 ∧
        slice w 20 1 = immSlice imm 11 1 ∧ slice w 21 10 = immSlice imm 1 10 ∧
          slice w 31 1 = immSlice imm 20 1 := by
  have h12 := immSlice_lt imm 12 8
  have h11 := immSlice_lt imm 11 1
  have h1 := immSlice_lt imm 1 10
  have h20 := immSlice_lt imm 20 1
  refine (ofNat_eq_iff_slices
    [(7, opcode), (5, rd), (8, immSlice imm 12 8), (1, immSlice imm 11 1),
      (10, immSlice imm 1 10), (1, immSlice imm 20 1)]
    (by simp only [packed, Nat.shiftLeft_eq]; omega) (by simp; omega) rfl w).trans ?_
  simp only [slices, List.map, List.cons.injEq, and_true, Nat.reduceAdd]

/-! ### Immediates of words -/

theorem immSlice_eq_slice (imm : Int32) (low length : Nat) :
    immSlice imm low length = slice imm.toUInt32 low length := rfl

/-- A number that is put together from the bits of an immediate is what its place keeps of it. -/
theorem signExtend_eq_reduce {v : Nat} (f : ImmediateField) (low length : Nat)
    (hplace : f.low = low ∧ f.size = low + length ∧ f.signed = true)
    (hv : v = slice imm.toUInt32 low length * 2 ^ low) :
    signExtend v f.size = Int32.ofInt (f.reduce imm.toInt) := by
  obtain ⟨hlow, hsize, hsigned⟩ := hplace
  have hpos := f.sign_pos hsigned
  have hvalue := f.value_le
  rw [if_pos hsigned] at hvalue
  rw [hv, ImmediateField.reduce, if_pos hsigned, hlow, hsize]
  exact signExtend_slice imm low length (by omega) (by omega)

theorem immI_eq (h : slice w 20 12 = immSlice imm 0 12) :
    immI w = Int32.ofInt (ImmediateField.short.reduce imm.toInt) :=
  signExtend_eq_reduce .short 0 12 ⟨rfl, rfl, rfl⟩
    (h.trans (Nat.mul_one _).symm)

theorem immS_eq (hlow : slice w 7 5 = immSlice imm 0 5) (hhigh : slice w 25 7 = immSlice imm 5 7) :
    immS w = Int32.ofInt (ImmediateField.short.reduce imm.toInt) := by
  refine signExtend_eq_reduce .short 0 12 ⟨rfl, rfl, rfl⟩ ?_
  rw [immSlice_eq_slice] at hlow hhigh
  rw [slice_add _ 0 5 7, hlow, hhigh]
  simp only [Nat.shiftLeft_eq, Nat.reduceAdd]
  omega

theorem immB_eq (h11 : slice w 7 1 = immSlice imm 11 1) (h1 : slice w 8 4 = immSlice imm 1 4)
    (h5 : slice w 25 6 = immSlice imm 5 6) (h12 : slice w 31 1 = immSlice imm 12 1) :
    immB w = Int32.ofInt (ImmediateField.branch.reduce imm.toInt) := by
  refine signExtend_eq_reduce .branch 1 12 ⟨rfl, rfl, rfl⟩ ?_
  rw [immSlice_eq_slice] at h11 h1 h5 h12
  rw [slice_add _ 1 4 8, slice_add _ 5 6 2, slice_add _ 11 1 1, h11, h1, h5, h12]
  simp only [Nat.shiftLeft_eq, Nat.reduceAdd]
  omega

theorem immU_eq (h : slice w 12 20 = immSlice imm 12 20) :
    immU w = Int32.ofInt (ImmediateField.upper.reduce imm.toInt) := by
  have hlt := slice_lt w 12 20
  rw [immU, ofNat_eq_signExtend (by rw [Nat.shiftLeft_eq]; omega), h, Nat.shiftLeft_eq]
  exact signExtend_eq_reduce .upper 12 20 ⟨rfl, rfl, rfl⟩ rfl

theorem immJ_eq (h12 : slice w 12 8 = immSlice imm 12 8) (h11 : slice w 20 1 = immSlice imm 11 1)
    (h1 : slice w 21 10 = immSlice imm 1 10) (h20 : slice w 31 1 = immSlice imm 20 1) :
    immJ w = Int32.ofInt (ImmediateField.jump.reduce imm.toInt) := by
  refine signExtend_eq_reduce .jump 1 20 ⟨rfl, rfl, rfl⟩ ?_
  rw [immSlice_eq_slice] at h11 h1 h12 h20
  rw [slice_add _ 1 10 10, slice_add _ 11 1 9, slice_add _ 12 8 1, h12, h11, h1, h20]
  simp only [Nat.shiftLeft_eq, Nat.reduceAdd]
  omega

theorem distance_eq (h : slice w 20 5 = immSlice imm 0 5) :
    Int32.ofNat (slice w 20 5) = Int32.ofInt (ImmediateField.distance.reduce imm.toInt) := by
  have hbits := slice_toUInt32 imm 0 5 (by decide)
  have hreduce : ImmediateField.distance.reduce imm.toInt = imm.toInt / 2 ^ 0 % 2 ^ 5 := by
    rw [pow_zero, Int.ediv_one]
    exact congrArg (· % 2 ^ 5) (by rw [ImmediateField.distance, pow_zero, Int.ediv_one, mul_one])
  rw [hreduce, ← hbits, h]
  rfl

/-! ### Words of immediates -/

theorem immSlice_immI : immSlice (immI w) 0 12 = slice w 20 12 := by
  have hlt := slice_lt w 20 12
  refine (slice_signExtend hlt (by decide) (by decide) (by decide)).trans ?_
  omega

theorem immSlice_immS :
    immSlice (immS w) 0 5 = slice w 7 5 ∧ immSlice (immS w) 5 7 = slice w 25 7 := by
  have hlow := slice_lt w 7 5
  have hhigh := slice_lt w 25 7
  have hv : slice w 25 7 <<< 5 + slice w 7 5 < 2 ^ 12 := by rw [Nat.shiftLeft_eq]; omega
  simp only [immSlice_eq_slice, immS]
  rw [slice_signExtend hv (by decide) (by decide) (by decide),
    slice_signExtend hv (by decide) (by decide) (by decide), Nat.shiftLeft_eq]
  omega

theorem immSlice_immB : immSlice (immB w) 11 1 = slice w 7 1 ∧
    immSlice (immB w) 1 4 = slice w 8 4 ∧ immSlice (immB w) 5 6 = slice w 25 6 ∧
      immSlice (immB w) 12 1 = slice w 31 1 := by
  have h11 := slice_lt w 7 1
  have h1 := slice_lt w 8 4
  have h5 := slice_lt w 25 6
  have h12 := slice_lt w 31 1
  have hv : slice w 31 1 <<< 12 + slice w 7 1 <<< 11 + slice w 25 6 <<< 5 + slice w 8 4 <<< 1 <
      2 ^ 13 := by simp only [Nat.shiftLeft_eq]; omega
  have hbits (low length : Nat) (h : low + length ≤ 13) :=
    slice_signExtend hv (by decide) (by decide) h
  simp only [immSlice_eq_slice, immB]
  rw [hbits 11 1 (by decide), hbits 1 4 (by decide), hbits 5 6 (by decide), hbits 12 1 (by decide)]
  simp only [Nat.shiftLeft_eq]
  refine ⟨?_, ?_, ?_, ?_⟩ <;> omega

theorem immSlice_immU : immSlice (immU w) 12 20 = slice w 12 20 := by
  have hlt := slice_lt w 12 20
  have hv : slice w 12 20 <<< 12 < 2 ^ 32 := by rw [Nat.shiftLeft_eq]; omega
  rw [immSlice_eq_slice, immU, ofNat_eq_signExtend hv,
    slice_signExtend hv (by decide) (by decide) (by decide), Nat.shiftLeft_eq]
  omega

theorem immSlice_immJ : immSlice (immJ w) 12 8 = slice w 12 8 ∧
    immSlice (immJ w) 11 1 = slice w 20 1 ∧ immSlice (immJ w) 1 10 = slice w 21 10 ∧
      immSlice (immJ w) 20 1 = slice w 31 1 := by
  have h12 := slice_lt w 12 8
  have h11 := slice_lt w 20 1
  have h1 := slice_lt w 21 10
  have h20 := slice_lt w 31 1
  have hv : slice w 31 1 <<< 20 + slice w 12 8 <<< 12 + slice w 20 1 <<< 11 +
      slice w 21 10 <<< 1 < 2 ^ 21 := by simp only [Nat.shiftLeft_eq]; omega
  have hbits (low length : Nat) (h : low + length ≤ 21) :=
    slice_signExtend hv (by decide) (by decide) h
  simp only [immSlice_eq_slice, immJ]
  rw [hbits 12 8 (by decide), hbits 11 1 (by decide), hbits 1 10 (by decide),
    hbits 20 1 (by decide)]
  simp only [Nat.shiftLeft_eq]
  refine ⟨?_, ?_, ?_, ?_⟩ <;> omega

theorem immSlice_distance : immSlice (Int32.ofNat (slice w 20 5)) 0 5 = slice w 20 5 := by
  have hlt := slice_lt w 20 5
  have hv : slice w 20 5 < 2 ^ 32 := by omega
  rw [immSlice_eq_slice, ofNat_eq_signExtend hv,
    slice_signExtend hv (by decide) (by decide) (by decide)]
  omega

/-! ### Function fields -/

theorem branchCondition_eq_some_iff {field : Nat} {c : Condition} :
    branchCondition field = some c ↔ conditionField c = field := by
  constructor
  · intro h
    unfold branchCondition at h
    split at h <;> cases h <;> rfl
  · rintro rfl
    cases c <;> rfl

theorem loadKind_eq_some_iff {field : Nat} {kind : LoadKind} :
    loadKind field = some kind ↔ loadField kind = field := by
  constructor
  · intro h
    unfold loadKind at h
    split at h <;> cases h <;> rfl
  · rintro rfl
    cases kind <;> rfl

theorem storeKind_eq_some_iff {field : Nat} {kind : StoreKind} :
    storeKind field = some kind ↔ storeField kind = field := by
  constructor
  · intro h
    unfold storeKind at h
    split at h <;> cases h <;> rfl
  · rintro rfl
    cases kind <;> rfl

theorem aluOp_eq_some_iff {op : AluOp} :
    aluOp funct7 funct3 = some op ↔ aluFields op = (funct7, funct3) := by
  constructor
  · intro h
    unfold aluOp at h
    split at h <;> cases h <;> rfl
  · intro h
    obtain ⟨rfl, rfl⟩ := Prod.mk.inj h.symm
    cases op <;> rfl

theorem conditionField_lt (c : Condition) : conditionField c < 2 ^ 3 := by cases c <;> decide

theorem loadField_lt (kind : LoadKind) : loadField kind < 2 ^ 3 := by cases kind <;> decide

theorem storeField_lt (kind : StoreKind) : storeField kind < 2 ^ 3 := by cases kind <;> decide

theorem aluFields_lt (op : AluOp) : (aluFields op).1 < 2 ^ 7 ∧ (aluFields op).2 < 2 ^ 3 := by
  cases op <;> decide

/-! ### Decoder and encoder -/

/-- The word of an immediate instruction is told by the lower function field, or for a shift by
both; either way its immediate is read back. -/
theorem decode_of_encodeImmediate {op : ImmOp} (h : encodeImmediate op rd rs1 imm = w) :
    decode w = some (fitted (.immediate op rd rs1 imm)) := by
  cases op with
  | slli | srli | srai =>
    obtain ⟨hop, hrd, hfield, hrs1, hdistance, hupper⟩ :=
      (encodeShift_eq_iff (by decide) (by decide) (by decide)).mp h
    simp only [decode, hop, hrd, hfield, hrs1, hupper, Reg.ofNat_val, decodeImmediate,
      distance_eq hdistance]
    rfl
  | addi | slti | sltiu | xori | ori | andi =>
    obtain ⟨hop, hrd, hfield, hrs1, himm⟩ := (encodeI_eq_iff (by decide) (by decide)).mp h
    simp only [decode, hop, hrd, hfield, hrs1, Reg.ofNat_val, decodeImmediate, immI_eq himm]
    rfl

/-- The decoder gives back what the encoder wrote, as far as the layout holds it. -/
theorem decode_of_encode {i : Instruction} (h : i.encode = w) : decode w = some i.fitted := by
  cases i with
  | upper op rd imm =>
    cases op with
    | lui | auipc =>
      obtain ⟨hop, hrd, himm⟩ := (encodeU_eq_iff (by decide)).mp h
      simp only [decode, hop, hrd, Reg.ofNat_val, immU_eq himm]
      rfl
  | jal rd imm =>
    obtain ⟨hop, hrd, h12, h11, h1, h20⟩ := (encodeJ_eq_iff (by decide)).mp h
    simp only [decode, hop, hrd, Reg.ofNat_val, immJ_eq h12 h11 h1 h20]
    rfl
  | jalr rd rs1 imm =>
    obtain ⟨hop, hrd, hfield, hrs1, himm⟩ := (encodeI_eq_iff (by decide) (by decide)).mp h
    simp only [decode, hop, hrd, hfield, hrs1, Reg.ofNat_val, immI_eq himm, if_true]
    rfl
  | branch c rs1 rs2 imm =>
    obtain ⟨hop, h11, h1, hfield, hrs1, hrs2, h5, h12⟩ :=
      (encodeB_eq_iff (conditionField_lt c) (by decide)).mp h
    simp only [decode, hop, hfield, hrs1, hrs2, Reg.ofNat_val, immB_eq h11 h1 h5 h12,
      branchCondition_eq_some_iff.mpr rfl, Option.map_some]
    rfl
  | load kind rd rs1 imm =>
    obtain ⟨hop, hrd, hfield, hrs1, himm⟩ :=
      (encodeI_eq_iff (loadField_lt kind) (by decide)).mp h
    simp only [decode, hop, hrd, hfield, hrs1, Reg.ofNat_val, immI_eq himm,
      loadKind_eq_some_iff.mpr rfl, Option.map_some]
    rfl
  | store kind rs1 rs2 imm =>
    obtain ⟨hop, hlow, hfield, hrs1, hrs2, hhigh⟩ :=
      (encodeS_eq_iff (storeField_lt kind) (by decide)).mp h
    simp only [decode, hop, hfield, hrs1, hrs2, Reg.ofNat_val, immS_eq hlow hhigh,
      storeKind_eq_some_iff.mpr rfl, Option.map_some]
    rfl
  | immediate op rd rs1 imm => exact decode_of_encodeImmediate h
  | register op rd rs1 rs2 =>
    obtain ⟨hop, hrd, hlower, hrs1, hrs2, hupper⟩ :=
      (encodeR_eq_iff (aluFields_lt op).1 (aluFields_lt op).2 (by decide)).mp h
    have halu : aluOp (slice w 25 7) (slice w 12 3) = some op :=
      aluOp_eq_some_iff.mpr (Prod.ext hupper.symm hlower.symm)
    simp only [decode, hop, hrd, hrs1, hrs2, halu, Reg.ofNat_val, Option.map_some]
    rfl
  | fence =>
    subst h
    decide
  | ecall =>
    subst h
    decide
  | ebreak =>
    subst h
    decide

/-- A word of the immediate instructions is the one that the encoder writes. -/
theorem encode_of_decodeImmediate {i : Instruction} (hop : slice w 0 7 = 0b0010011)
    (h : decodeImmediate w (Reg.ofNat (slice w 7 5)) (Reg.ofNat (slice w 15 5)) (slice w 25 7)
      (slice w 12 3) = some i) : i.encode = w := by
  unfold decodeImmediate at h
  split at h <;> cases h
  case h_7 hupper hfield | h_8 hupper hfield | h_9 hupper hfield =>
    exact (encodeShift_eq_iff (by decide) (by decide) (by decide)).mpr
      ⟨hop, Reg.slice_eq_val .., hfield, Reg.slice_eq_val .., immSlice_distance.symm, hupper⟩
  all_goals
    exact (encodeI_eq_iff (by decide) (by decide)).mpr
      ⟨hop, Reg.slice_eq_val .., ‹_›, Reg.slice_eq_val .., immSlice_immI.symm⟩

/-- The encoder gives back the word that was decoded, other than the words of `fence`, of which
there are many. -/
theorem encode_of_decode {i : Instruction} (h : decode w = some i) (hfence : i ≠ .fence) :
    i.encode = w := by
  unfold decode at h
  simp only at h
  split at h
  case h_1 hop | h_2 hop =>
    cases h
    exact (encodeU_eq_iff (by decide)).mpr ⟨hop, Reg.slice_eq_val .., immSlice_immU.symm⟩
  case h_3 hop =>
    cases h
    obtain ⟨h12, h11, h1, h20⟩ := immSlice_immJ (w := w)
    exact (encodeJ_eq_iff (by decide)).mpr
      ⟨hop, Reg.slice_eq_val .., h12.symm, h11.symm, h1.symm, h20.symm⟩
  case h_4 hop =>
    split at h <;> cases h
    exact (encodeI_eq_iff (by decide) (by decide)).mpr
      ⟨hop, Reg.slice_eq_val .., ‹_›, Reg.slice_eq_val .., immSlice_immI.symm⟩
  case h_5 hop =>
    obtain ⟨c, hc, rfl⟩ := Option.map_eq_some_iff.mp h
    obtain ⟨h11, h1, h5, h12⟩ := immSlice_immB (w := w)
    exact (encodeB_eq_iff (conditionField_lt c) (by decide)).mpr
      ⟨hop, h11.symm, h1.symm, (branchCondition_eq_some_iff.mp hc).symm, Reg.slice_eq_val ..,
        Reg.slice_eq_val .., h5.symm, h12.symm⟩
  case h_6 hop =>
    obtain ⟨kind, hkind, rfl⟩ := Option.map_eq_some_iff.mp h
    exact (encodeI_eq_iff (loadField_lt kind) (by decide)).mpr
      ⟨hop, Reg.slice_eq_val .., (loadKind_eq_some_iff.mp hkind).symm, Reg.slice_eq_val ..,
        immSlice_immI.symm⟩
  case h_7 hop =>
    obtain ⟨kind, hkind, rfl⟩ := Option.map_eq_some_iff.mp h
    obtain ⟨hlow, hhigh⟩ := immSlice_immS (w := w)
    exact (encodeS_eq_iff (storeField_lt kind) (by decide)).mpr
      ⟨hop, hlow.symm, (storeKind_eq_some_iff.mp hkind).symm, Reg.slice_eq_val ..,
        Reg.slice_eq_val .., hhigh.symm⟩
  case h_8 hop => exact encode_of_decodeImmediate hop h
  case h_9 hop =>
    obtain ⟨op, halu, rfl⟩ := Option.map_eq_some_iff.mp h
    obtain ⟨hupper, hlower⟩ := Prod.ext_iff.mp (aluOp_eq_some_iff.mp halu)
    exact (encodeR_eq_iff (aluFields_lt op).1 (aluFields_lt op).2 (by decide)).mpr
      ⟨hop, Reg.slice_eq_val .., hlower.symm, Reg.slice_eq_val .., Reg.slice_eq_val ..,
        hupper.symm⟩
  case h_10 =>
    split at h <;> cases h
    exact absurd rfl hfence
  case h_11 =>
    split at h
    · cases h
      exact (‹w = _›).symm
    · split at h <;> cases h
      exact (‹w = _›).symm
  case h_12 => cases h

/-! ### Instructions that fit -/

variable {i : Instruction}

@[simp] theorem withImm_imm (i : Instruction) : i.withImm i.imm = i := by cases i <;> rfl

@[simp] theorem immediateField_fitted (i : Instruction) :
    i.fitted.immediateField = i.immediateField := by cases i <;> rfl

@[simp] theorem imm_fitted (i : Instruction) :
    i.fitted.imm = Int32.ofInt (i.immediateField.reduce i.imm.toInt) := by
  have habsent : (0 : Int32) = Int32.ofInt (ImmediateField.absent.reduce (0 : Int32).toInt) := rfl
  cases i with
  | register => exact habsent
  | _ => rfl

@[simp] theorem mnemonic_fitted (i : Instruction) : i.fitted.mnemonic = i.mnemonic := by
  cases i with
  | upper op | immediate op => cases op <;> rfl
  | branch c => cases c <;> rfl
  | load kind | store kind => cases kind <;> rfl
  | _ => rfl

theorem encodable_fitted (i : Instruction) : i.fitted.Encodable := by
  have hholds := ImmediateField.holds_reduce i.immediateField i.imm.toInt
  rw [Encodable, immediateField_fitted, imm_fitted, hholds.toInt_ofInt]
  exact hholds

theorem Encodable.fitted_eq (h : i.Encodable) : i.fitted = i := by
  rw [fitted, h.reduce_eq, Int32.ofInt_toInt, withImm_imm]

/-- The decoder gives back the instructions that fit their layout. -/
theorem Encodable.decode_encode (h : i.Encodable) : decode i.encode = some i := by
  rw [decode_of_encode rfl, h.fitted_eq]

theorem encodable_of_decode (h : decode w = some i) : i.Encodable := by
  have hfitted : i.fitted = i := by
    by_cases hfence : i = .fence
    · rw [hfence]
      rfl
    · have hword := decode_of_encode (encode_of_decode h hfence)
      exact Option.some.inj (hword.symm.trans h)
  rw [← hfitted]
  exact encodable_fitted i

/-- The words of `fence`: all of its opcode whose function field is zero. -/
theorem decode_eq_fence_iff :
    decode w = some .fence ↔ slice w 0 7 = 0b0001111 ∧ slice w 12 3 = 0 := by
  constructor
  · intro h
    unfold decode at h
    simp only at h
    split at h
    case h_10 hop =>
      split at h
      · exact ⟨hop, ‹_›⟩
      · cases h
    case h_8 =>
      unfold decodeImmediate at h
      split at h <;> cases h
    case h_11 =>
      split at h
      · cases h
      · split at h <;> cases h
    case h_4 => split at h <;> cases h
    case h_5 | h_6 | h_7 | h_9 =>
      obtain ⟨_, _, hi⟩ := Option.map_eq_some_iff.mp h
      cases hi
    all_goals cases h
  · rintro ⟨hop, hfield⟩
    simp only [decode, hop, hfield, if_true]

/-- A refused word is neither a word of `fence` nor the word of another instruction. -/
theorem decode_eq_none_iff :
    decode w = none ↔ (∀ i : Instruction, i.Encodable → i ≠ .fence → i.encode ≠ w) ∧
      ¬(slice w 0 7 = 0b0001111 ∧ slice w 12 3 = 0) := by
  rw [← decode_eq_fence_iff]
  constructor
  · intro h
    refine ⟨?_, by rw [h]; exact nofun⟩
    rintro i hi - rfl
    rw [hi.decode_encode] at h
    cases h
  · rintro ⟨hwords, hfence⟩
    cases hdecode : decode w with
    | none => rfl
    | some i =>
      have hi : i ≠ .fence := fun h => hfence (h ▸ hdecode)
      exact absurd (encode_of_decode hdecode hi) (hwords i (encodable_of_decode hdecode) hi)

/-! ### Assembler -/

/-- The mnemonics of the assembler that stand for one instruction, by their number of operands. -/
def encoders : List (String × Nat) :=
  [("lui", 2), ("auipc", 2), ("jal", 2), ("jalr", 3), ("beq", 3), ("bne", 3), ("blt", 3),
   ("bge", 3), ("bltu", 3), ("lb", 3), ("lh", 3), ("lw", 3), ("lbu", 3), ("sb", 3), ("sh", 3),
   ("sw", 3), ("addi", 3), ("andi", 3), ("slli", 3), ("srli", 3), ("add", 3), ("sub", 3),
   ("xor", 3), ("mul", 3), ("divu", 3), ("remu", 3), ("ecall", 0), ("ebreak", 0)]

/-- An instruction that has the operands of its written form: registers by their five low bits, an
immediate by its residue for the field, which has a sign unless it is the distance of a shift. An
offset loses its lowest bit, and an upper immediate stands above twelve zero bits. -/
def HasOperands : Instruction → List Int → Prop
  | .upper _ rd imm, [a, b] => (rd.val : Int) = a % 32 ∧ imm.toInt = b.bmod (2 ^ 20) * 2 ^ 12
  | .jal rd imm, [a, b] => (rd.val : Int) = a % 32 ∧ imm.toInt = (b / 2 * 2).bmod (2 ^ 21)
  | .jalr rd rs1 imm, [a, b, c] | .load _ rd rs1 imm, [a, b, c] =>
    (rd.val : Int) = a % 32 ∧ (rs1.val : Int) = b % 32 ∧ imm.toInt = c.bmod (2 ^ 12)
  | .immediate op rd rs1 imm, [a, b, c] =>
    (rd.val : Int) = a % 32 ∧ (rs1.val : Int) = b % 32 ∧
      imm.toInt = if op.isShift then c % 2 ^ 5 else c.bmod (2 ^ 12)
  | .store _ rs1 rs2 imm, [a, b, c] =>
    (rs2.val : Int) = a % 32 ∧ (rs1.val : Int) = b % 32 ∧ imm.toInt = c.bmod (2 ^ 12)
  | .branch _ rs1 rs2 imm, [a, b, c] =>
    (rs1.val : Int) = a % 32 ∧ (rs2.val : Int) = b % 32 ∧ imm.toInt = (c / 2 * 2).bmod (2 ^ 13)
  | .register _ rd rs1 rs2, [a, b, c] =>
    (rd.val : Int) = a % 32 ∧ (rs1.val : Int) = b % 32 ∧ (rs2.val : Int) = c % 32
  | .ecall, [] | .ebreak, [] => True
  | _, _ => False

@[simp] theorem val_ofInt (n : Int) : ((Reg.ofInt n).val : Int) = n % 32 := by
  rw [Reg.ofInt, Reg.ofNat, Fin.ofNat]
  simp only
  omega

theorem toInt_short (c : Int) :
    (Int32.ofInt (ImmediateField.short.reduce (Int32.ofInt c).toInt)).toInt = c.bmod (2 ^ 12) := by
  rw [ImmediateField.toInt_reduce_ofInt]
  simp [ImmediateField.reduce, ImmediateField.short]

theorem toInt_distance (c : Int) :
    (Int32.ofInt (ImmediateField.distance.reduce (Int32.ofInt c).toInt)).toInt = c % 2 ^ 5 := by
  rw [ImmediateField.toInt_reduce_ofInt]
  simp [ImmediateField.reduce, ImmediateField.distance]

theorem toInt_upper (c : Int) :
    (Int32.ofInt (ImmediateField.upper.reduce (Int32.ofInt (c * 0x1000)).toInt)).toInt =
      c.bmod (2 ^ 20) * 2 ^ 12 := by
  rw [ImmediateField.toInt_reduce_ofInt]
  simp only [ImmediateField.reduce, ImmediateField.upper, Int.bmod_def, if_true]
  omega

variable {name : String} {args : List Int} {a b c : Int}

/-- A mnemonic with as many operands as it takes is assembled. -/
theorem exists_assemble (h : (name, args.length) ∈ encoders) :
    name ≠ "li" ∧ ∃ i, assemble? name args = some [i] := by
  match args with
  | [] =>
    simp [encoders] at h
    rcases h with rfl | rfl <;> exact ⟨by decide, _, rfl⟩
  | [a, b] =>
    simp [encoders] at h
    rcases h with rfl | rfl | rfl <;> exact ⟨by decide, _, rfl⟩
  | [a, b, c] =>
    simp [encoders] at h
    rcases h with rfl | rfl | rfl | rfl | rfl | rfl | rfl | rfl | rfl | rfl | rfl | rfl | rfl |
      rfl | rfl | rfl | rfl | rfl | rfl | rfl | rfl | rfl | rfl <;> exact ⟨by decide, _, rfl⟩
  | [_] | _ :: _ :: _ :: _ :: _ => simp [encoders] at h

/-- An assembled instruction of two operands is that of its mnemonic, with these operands. -/
theorem hasOperands_upper (h : upper? name a b = some i) :
    i.mnemonic = name ∧ i.fitted.HasOperands [a, b] := by
  unfold upper? at h
  simp only at h
  split at h <;> cases h
  · exact ⟨rfl, val_ofInt a, toInt_upper b⟩
  · exact ⟨rfl, val_ofInt a, toInt_upper b⟩
  · exact ⟨rfl, val_ofInt a, ImmediateField.toInt_reduce_ofInt .jump b⟩

/-- An assembled instruction of three operands is that of its mnemonic, with these operands. -/
theorem hasOperands_ternary (h : ternary? name a b c = some i) :
    i.mnemonic = name ∧ i.fitted.HasOperands [a, b, c] := by
  unfold ternary? at h
  simp only [Option.orElse_eq_orElse, Option.orElse_eq_or, Option.or_eq_some_iff,
    Option.map_eq_some_iff, Option.ite_none_right_eq_some, Option.some.injEq] at h
  rcases h with ⟨op, hop, rfl⟩ | ⟨-, ⟨op, hop, rfl⟩ | ⟨-, ⟨kind, hkind, rfl⟩ |
    ⟨-, ⟨kind, hkind, rfl⟩ | ⟨-, ⟨condition, hcondition, rfl⟩ | ⟨-, rfl, rfl⟩⟩⟩⟩⟩
  · refine ⟨?_, val_ofInt a, val_ofInt b, val_ofInt c⟩
    unfold registerOp? at hop
    split at hop <;> cases hop <;> rfl
  · unfold immediateOp? at hop
    split at hop <;> cases hop
    · exact ⟨rfl, val_ofInt a, val_ofInt b, toInt_short c⟩
    · exact ⟨rfl, val_ofInt a, val_ofInt b, toInt_short c⟩
    · exact ⟨rfl, val_ofInt a, val_ofInt b, toInt_distance c⟩
    · exact ⟨rfl, val_ofInt a, val_ofInt b, toInt_distance c⟩
  · refine ⟨?_, val_ofInt a, val_ofInt b, toInt_short c⟩
    unfold loadKind? at hkind
    split at hkind <;> cases hkind <;> rfl
  · refine ⟨?_, val_ofInt a, val_ofInt b, toInt_short c⟩
    unfold storeKind? at hkind
    split at hkind <;> cases hkind <;> rfl
  · refine ⟨?_, val_ofInt a, val_ofInt b, ImmediateField.toInt_reduce_ofInt .branch c⟩
    unfold condition? at hcondition
    split at hcondition <;> cases hcondition <;> rfl
  · exact ⟨rfl, val_ofInt a, val_ofInt b, toInt_short c⟩

/-- What is assembled to one instruction has the mnemonic and the operands that were written. -/
theorem hasOperands_assemble (hname : name ≠ "li") (h : assemble? name args = some [i]) :
    i.mnemonic = name ∧ i.fitted.HasOperands args := by
  unfold assemble? at h
  split at h
  · split at h <;> cases h
    · exact ⟨rfl, trivial⟩
    · exact ⟨rfl, trivial⟩
  · rw [if_neg hname] at h
    obtain ⟨j, hj, hi⟩ := Option.map_eq_some_iff.mp h
    cases hi
    exact hasOperands_upper hj
  · obtain ⟨j, hj, hi⟩ := Option.map_eq_some_iff.mp h
    cases hi
    exact hasOperands_ternary hj
  · cases h

/-! ### Inverses -/

/-- **Decoder and encoder are inverse.** An instruction that fits its layout is read back from its
word; a word that is decoded, other than the words of `fence`, is the word of its instruction, which
fits, so two such words of one instruction are equal; the words of `fence` are those of its opcode
whose function field is zero, and every further word is refused. Behind a mnemonic of the assembler
any operands may stand: the decoded instruction has the mnemonic and the residues of these
operands. -/
theorem decode_inverse_encode :
    (∀ i : Instruction, i.Encodable → decode i.encode = some i) ∧
      (∀ w i, decode w = some i → i ≠ .fence → i.Encodable ∧ i.encode = w) ∧
      (∀ w w' i, decode w = some i → decode w' = some i → i ≠ .fence → w = w') ∧
      (∀ w, decode w = some .fence ↔ slice w 0 7 = 0b0001111 ∧ slice w 12 3 = 0) ∧
      (∀ w, decode w = none ↔ (∀ i : Instruction, i.Encodable → i ≠ .fence → i.encode ≠ w) ∧
        ¬(slice w 0 7 = 0b0001111 ∧ slice w 12 3 = 0)) ∧
      ∀ name args, (name, args.length) ∈ encoders →
        ∃ i j, assemble? name args = some [i] ∧ decode i.encode = some j ∧ j.mnemonic = name ∧
          j.HasOperands args := by
  refine ⟨fun i => Encodable.decode_encode, ?_, ?_, fun w => decode_eq_fence_iff,
    fun w => decode_eq_none_iff, ?_⟩
  · intro w i h hfence
    exact ⟨encodable_of_decode h, encode_of_decode h hfence⟩
  · intro w w' i h h' hfence
    rw [← encode_of_decode h hfence, encode_of_decode h' hfence]
  · intro name args hmem
    obtain ⟨hname, i, hi⟩ := exists_assemble hmem
    obtain ⟨hmnemonic, hoperands⟩ := hasOperands_assemble hname hi
    exact ⟨i, i.fitted, hi, decode_of_encode rfl, by rw [mnemonic_fitted, hmnemonic], hoperands⟩

/-- A backward branch is read back from its word, and so is one that is assembled from operands out
of range, of which the low bits count. -/
theorem bne_inverse :
    (branch .ne 10 11 (-8)).Encodable ∧
      decode (branch .ne 10 11 (-8)).encode = some (.branch .ne 10 11 (-8)) ∧
      (branch .ne 10 11 (-8)).encode = 0xfeb51ce3 ∧
      ∃ i j, assemble? "bne" [42, 11, 8185] = some [i] ∧ decode i.encode = some j ∧
        j.mnemonic = "bne" ∧ j.HasOperands [42, 11, 8185] := by
  obtain ⟨hdecode, hencode, -, -, -, hassemble⟩ := decode_inverse_encode
  have hword : decode 0xfeb51ce3 = some (.branch .ne 10 11 (-8)) := by decide
  have hfits := hencode 0xfeb51ce3 _ hword (by decide)
  exact ⟨hfits.1, hdecode _ hfits.1, hfits.2, hassemble "bne" [42, 11, 8185] (by decide)⟩

/-- The distance of a shift has no sign and at most five bits: thirty-one stays, and thirty-two
becomes zero. -/
theorem slli_distance_unsigned :
    (∃ i j, assemble? "slli" [1, 1, 31] = some [i] ∧ decode i.encode = some j ∧
        j.imm.toInt = 31 ∧ j.imm.toInt ≠ Int.bmod 31 (2 ^ 5)) ∧
      ∃ i j, assemble? "slli" [1, 1, 32] = some [i] ∧ decode i.encode = some j ∧
        j.imm.toInt = 0 ∧ j.imm.toInt ≠ Int.bmod 32 (2 ^ 12) :=
  ⟨⟨.immediate .slli 1 1 31, .immediate .slli 1 1 31, by decide, by decide, by decide, by decide⟩,
    ⟨.immediate .slli 1 1 32, .immediate .slli 1 1 0, by decide, by decide, by decide, by decide⟩⟩

end Instruction

end ReplayVM
