import ReplayVM.Isa.Instruction

/-!
# Encoding

The word of an instruction: its opcode, its function fields and its operands, each at the place its
layout gives it. An immediate keeps the bits that its layout has room for and loses the others.

## Main definitions

* `Instruction.encode`: the word of an instruction.
-/

namespace ReplayVM.Instruction

/-- The number in the `length` bits of an immediate from bit `low` on. -/
def immSlice (imm : Int32) (low length : Nat) : Nat := imm.toUInt32.toNat >>> low % (1 <<< length)

/-! ### Layouts -/

/-- The word of the layout R. -/
def encodeR (funct7 : Nat) (rs2 rs1 : Reg) (funct3 : Nat) (rd : Reg) (opcode : Nat) : UInt32 :=
  UInt32.ofNat (funct7 <<< 25 + rs2.val <<< 20 + rs1.val <<< 15 + funct3 <<< 12 +
    rd.val <<< 7 + opcode)

/-- The word of the layout I. -/
def encodeI (imm : Int32) (rs1 : Reg) (funct3 : Nat) (rd : Reg) (opcode : Nat) : UInt32 :=
  UInt32.ofNat (immSlice imm 0 12 <<< 20 + rs1.val <<< 15 + funct3 <<< 12 +
    rd.val <<< 7 + opcode)

/-- The word of a shift by an immediate: the layout I, with a function field above the distance. -/
def encodeShift (funct7 : Nat) (imm : Int32) (rs1 : Reg) (funct3 : Nat) (rd : Reg)
    (opcode : Nat) : UInt32 :=
  UInt32.ofNat (funct7 <<< 25 + immSlice imm 0 5 <<< 20 + rs1.val <<< 15 +
    funct3 <<< 12 + rd.val <<< 7 + opcode)

/-- The word of the layout S. -/
def encodeS (imm : Int32) (rs2 rs1 : Reg) (funct3 opcode : Nat) : UInt32 :=
  UInt32.ofNat (immSlice imm 5 7 <<< 25 + rs2.val <<< 20 + rs1.val <<< 15 +
    funct3 <<< 12 + immSlice imm 0 5 <<< 7 + opcode)

/-- The word of the layout B. -/
def encodeB (imm : Int32) (rs2 rs1 : Reg) (funct3 opcode : Nat) : UInt32 :=
  UInt32.ofNat (immSlice imm 12 1 <<< 31 + immSlice imm 5 6 <<< 25 + rs2.val <<< 20 +
    rs1.val <<< 15 + funct3 <<< 12 + immSlice imm 1 4 <<< 8 + immSlice imm 11 1 <<< 7 +
    opcode)

/-- The word of the layout U. -/
def encodeU (imm : Int32) (rd : Reg) (opcode : Nat) : UInt32 :=
  UInt32.ofNat (immSlice imm 12 20 <<< 12 + rd.val <<< 7 + opcode)

/-- The word of the layout J. -/
def encodeJ (imm : Int32) (rd : Reg) (opcode : Nat) : UInt32 :=
  UInt32.ofNat (immSlice imm 20 1 <<< 31 + immSlice imm 1 10 <<< 21 +
    immSlice imm 11 1 <<< 20 + immSlice imm 12 8 <<< 12 + rd.val <<< 7 + opcode)

/-! ### Function fields -/

/-- The function field of a branch. -/
def conditionField : Condition → Nat
  | .eq => 0b000
  | .ne => 0b001
  | .lt => 0b100
  | .ge => 0b101
  | .ltu => 0b110
  | .geu => 0b111

/-- The function field of a load. -/
def loadField : LoadKind → Nat
  | .byte => 0b000
  | .half => 0b001
  | .word => 0b010
  | .byteUnsigned => 0b100
  | .halfUnsigned => 0b101

/-- The function field of a store. -/
def storeField : StoreKind → Nat
  | .byte => 0b000
  | .half => 0b001
  | .word => 0b010

/-- The upper and the lower function field of a register instruction. -/
def aluFields : AluOp → Nat × Nat
  | .add => (0b0000000, 0b000)
  | .sub => (0b0100000, 0b000)
  | .sll => (0b0000000, 0b001)
  | .slt => (0b0000000, 0b010)
  | .sltu => (0b0000000, 0b011)
  | .xor => (0b0000000, 0b100)
  | .srl => (0b0000000, 0b101)
  | .sra => (0b0100000, 0b101)
  | .or => (0b0000000, 0b110)
  | .and => (0b0000000, 0b111)
  | .mul => (0b0000001, 0b000)
  | .mulh => (0b0000001, 0b001)
  | .mulhsu => (0b0000001, 0b010)
  | .mulhu => (0b0000001, 0b011)
  | .div => (0b0000001, 0b100)
  | .divu => (0b0000001, 0b101)
  | .rem => (0b0000001, 0b110)
  | .remu => (0b0000001, 0b111)

/-- The word of an immediate instruction. -/
def encodeImmediate (op : ImmOp) (rd rs1 : Reg) (imm : Int32) : UInt32 :=
  match op with
  | .addi => encodeI imm rs1 0b000 rd 0b0010011
  | .slti => encodeI imm rs1 0b010 rd 0b0010011
  | .sltiu => encodeI imm rs1 0b011 rd 0b0010011
  | .xori => encodeI imm rs1 0b100 rd 0b0010011
  | .ori => encodeI imm rs1 0b110 rd 0b0010011
  | .andi => encodeI imm rs1 0b111 rd 0b0010011
  | .slli => encodeShift 0b0000000 imm rs1 0b001 rd 0b0010011
  | .srli => encodeShift 0b0000000 imm rs1 0b101 rd 0b0010011
  | .srai => encodeShift 0b0100000 imm rs1 0b101 rd 0b0010011

/-! ### Words -/

/-- The word of an instruction. -/
def encode : Instruction → UInt32
  | .upper .lui rd imm => encodeU imm rd 0b0110111
  | .upper .auipc rd imm => encodeU imm rd 0b0010111
  | .jal rd imm => encodeJ imm rd 0b1101111
  | .jalr rd rs1 imm => encodeI imm rs1 0b000 rd 0b1100111
  | .branch condition rs1 rs2 imm => encodeB imm rs2 rs1 (conditionField condition) 0b1100011
  | .load kind rd rs1 imm => encodeI imm rs1 (loadField kind) rd 0b0000011
  | .store kind rs1 rs2 imm => encodeS imm rs2 rs1 (storeField kind) 0b0100011
  | .immediate op rd rs1 imm => encodeImmediate op rd rs1 imm
  | .register op rd rs1 rs2 =>
    encodeR (aluFields op).1 rs2 rs1 (aluFields op).2 rd 0b0110011
  | .fence => encodeI 0 .zero 0b000 .zero 0b0001111
  | .ecall => 0x00000073
  | .ebreak => 0x00100073

end ReplayVM.Instruction
