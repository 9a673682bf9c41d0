import ReplayVM.Isa.Instruction

/-!
# Decoding

An instruction word is read field by field: the low seven bits select the layout, the function
fields select the operation, and the immediate is collected from the fields its layout scatters it
over. Every word outside RV32IM is refused: compressed words, control registers, other extensions
and reserved function fields.

## Main definitions

* `signExtend`: the signed reading of a number of given width.
* `Instruction.decode`: the instruction encoded by a word, if any.
-/

namespace ReplayVM

/-- The number in the `length` bits of a word from bit `low` on. -/
def slice (w : UInt32) (low length : Nat) : Nat := w.toNat >>> low % (1 <<< length)

/-- The signed reading of a number of `size` bits: when its top bit is set, `2 ^ size` less. -/
def signExtend (v size : Nat) : Int32 :=
  if v.testBit (size - 1) then Int32.ofInt (v - (1 <<< size : Nat)) else Int32.ofNat v

namespace Instruction

/-! ### Immediates -/

/-- The immediate of the layout I. -/
def immI (w : UInt32) : Int32 := signExtend (slice w 20 12) 12

/-- The immediate of the layout S. -/
def immS (w : UInt32) : Int32 := signExtend (slice w 25 7 <<< 5 + slice w 7 5) 12

/-- The immediate of the layout B, which is even. -/
def immB (w : UInt32) : Int32 :=
  signExtend
    (slice w 31 1 <<< 12 + slice w 7 1 <<< 11 + slice w 25 6 <<< 5 + slice w 8 4 <<< 1) 13

/-- The immediate of the layout U, whose low twelve bits are zero. -/
def immU (w : UInt32) : Int32 := Int32.ofNat (slice w 12 20 <<< 12)

/-- The immediate of the layout J, which is even. -/
def immJ (w : UInt32) : Int32 :=
  signExtend
    (slice w 31 1 <<< 20 + slice w 12 8 <<< 12 + slice w 20 1 <<< 11 + slice w 21 10 <<< 1) 21

/-! ### Function fields -/

/-- The condition of a branch with the given function field. -/
def branchCondition : Nat → Option Condition
  | 0b000 => some .eq
  | 0b001 => some .ne
  | 0b100 => some .lt
  | 0b101 => some .ge
  | 0b110 => some .ltu
  | 0b111 => some .geu
  | _ => none

/-- The kind of a load with the given function field. -/
def loadKind : Nat → Option LoadKind
  | 0b000 => some .byte
  | 0b001 => some .half
  | 0b010 => some .word
  | 0b100 => some .byteUnsigned
  | 0b101 => some .halfUnsigned
  | _ => none

/-- The kind of a store with the given function field. -/
def storeKind : Nat → Option StoreKind
  | 0b000 => some .byte
  | 0b001 => some .half
  | 0b010 => some .word
  | _ => none

/-- The operation of a register instruction with the given function fields. -/
def aluOp : (funct7 funct3 : Nat) → Option AluOp
  | 0b0000000, 0b000 => some .add
  | 0b0100000, 0b000 => some .sub
  | 0b0000000, 0b001 => some .sll
  | 0b0000000, 0b010 => some .slt
  | 0b0000000, 0b011 => some .sltu
  | 0b0000000, 0b100 => some .xor
  | 0b0000000, 0b101 => some .srl
  | 0b0100000, 0b101 => some .sra
  | 0b0000000, 0b110 => some .or
  | 0b0000000, 0b111 => some .and
  | 0b0000001, 0b000 => some .mul
  | 0b0000001, 0b001 => some .mulh
  | 0b0000001, 0b010 => some .mulhsu
  | 0b0000001, 0b011 => some .mulhu
  | 0b0000001, 0b100 => some .div
  | 0b0000001, 0b101 => some .divu
  | 0b0000001, 0b110 => some .rem
  | 0b0000001, 0b111 => some .remu
  | _, _ => none

/-- An immediate instruction with the given function fields; the upper one matters to shifts only,
whose immediate is the distance in the five bits below it. -/
def decodeImmediate (w : UInt32) (rd rs1 : Reg) : (funct7 funct3 : Nat) → Option Instruction
  | _, 0b000 => some (.immediate .addi rd rs1 (immI w))
  | _, 0b010 => some (.immediate .slti rd rs1 (immI w))
  | _, 0b011 => some (.immediate .sltiu rd rs1 (immI w))
  | _, 0b100 => some (.immediate .xori rd rs1 (immI w))
  | _, 0b110 => some (.immediate .ori rd rs1 (immI w))
  | _, 0b111 => some (.immediate .andi rd rs1 (immI w))
  | 0b0000000, 0b001 => some (.immediate .slli rd rs1 (Int32.ofNat (slice w 20 5)))
  | 0b0000000, 0b101 => some (.immediate .srli rd rs1 (Int32.ofNat (slice w 20 5)))
  | 0b0100000, 0b101 => some (.immediate .srai rd rs1 (Int32.ofNat (slice w 20 5)))
  | _, _ => none

/-! ### Words -/

/-- The instruction that a word encodes. -/
def decode (w : UInt32) : Option Instruction :=
  let rd := Reg.ofNat (slice w 7 5)
  let funct3 := slice w 12 3
  let rs1 := Reg.ofNat (slice w 15 5)
  let rs2 := Reg.ofNat (slice w 20 5)
  let funct7 := slice w 25 7
  match slice w 0 7 with
  | 0b0110111 => some (.upper .lui rd (immU w))
  | 0b0010111 => some (.upper .auipc rd (immU w))
  | 0b1101111 => some (.jal rd (immJ w))
  | 0b1100111 => if funct3 = 0 then some (.jalr rd rs1 (immI w)) else none
  | 0b1100011 => (branchCondition funct3).map (.branch · rs1 rs2 (immB w))
  | 0b0000011 => (loadKind funct3).map (.load · rd rs1 (immI w))
  | 0b0100011 => (storeKind funct3).map (.store · rs1 rs2 (immS w))
  | 0b0010011 => decodeImmediate w rd rs1 funct7 funct3
  | 0b0110011 => (aluOp funct7 funct3).map (.register · rd rs1 rs2)
  | 0b0001111 => if funct3 = 0 then some .fence else none
  | 0b1110011 =>
    if w = 0x00000073 then some .ecall
    else if w = 0x00100073 then some .ebreak
    else none
  | _ => none

end Instruction

end ReplayVM
