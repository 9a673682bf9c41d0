import ReplayVM.Isa.Register

/-!
# RV32IM instructions

The instructions of the base integer set RV32I and of the multiplication and division extension M,
grouped by what they do. Immediates are sign-extended; the immediate of an upper instruction has
twelve zero bits at its low end, that of a shift is its distance.

## Main definitions

* `Instruction`, over `UpperOp`, `Condition`, `LoadKind`, `StoreKind`, `ImmOp` and `AluOp`.
* `Layout`, `Instruction.layout`: which of the six encoding layouts an instruction has.
* `Instruction.rd`, `Instruction.rs1`, `Instruction.rs2`, `Instruction.imm`: its operands, zero
  where it has none.
* `Instruction.mnemonic`, `Instruction.text`: its assembler text.
-/

namespace ReplayVM

/-! ### Operations -/

/-- Instructions that place an immediate in the upper twenty bits. -/
inductive UpperOp where
  /-- The immediate itself. -/
  | lui
  /-- The immediate added to the program counter. -/
  | auipc
  deriving DecidableEq

/-- Conditions of a branch, on two registers. -/
inductive Condition where
  | eq
  | ne
  | lt
  | ge
  | ltu
  | geu
  deriving DecidableEq

/-- What a load reads, and how it is extended to a word. -/
inductive LoadKind where
  | byte
  | half
  | word
  | byteUnsigned
  | halfUnsigned
  deriving DecidableEq

/-- What a store writes. -/
inductive StoreKind where
  | byte
  | half
  | word
  deriving DecidableEq

/-- Operations on two register values. -/
inductive AluOp where
  | add
  | sub
  | sll
  | slt
  | sltu
  | xor
  | srl
  | sra
  | or
  | and
  | mul
  | mulh
  | mulhsu
  | mulhu
  | div
  | divu
  | rem
  | remu
  deriving DecidableEq

/-- Operations on a register value and an immediate. -/
inductive ImmOp where
  | addi
  | slti
  | sltiu
  | xori
  | ori
  | andi
  | slli
  | srli
  | srai
  deriving DecidableEq

/-- An RV32IM instruction. -/
inductive Instruction where
  | upper (op : UpperOp) (rd : Reg) (imm : Int32)
  | jal (rd : Reg) (imm : Int32)
  | jalr (rd rs1 : Reg) (imm : Int32)
  | branch (condition : Condition) (rs1 rs2 : Reg) (imm : Int32)
  | load (kind : LoadKind) (rd rs1 : Reg) (imm : Int32)
  | store (kind : StoreKind) (rs1 rs2 : Reg) (imm : Int32)
  | immediate (op : ImmOp) (rd rs1 : Reg) (imm : Int32)
  | register (op : AluOp) (rd rs1 rs2 : Reg)
  /-- Orders memory accesses, which here are in order already. -/
  | fence
  | ecall
  | ebreak
  deriving DecidableEq

/-- The encoding layouts of the instruction set. -/
inductive Layout where
  | r
  | i
  | s
  | b
  | u
  | j
  deriving DecidableEq

/-- The number of bytes a load reads. -/
def LoadKind.width : LoadKind → UInt32
  | .byte | .byteUnsigned => 1
  | .half | .halfUnsigned => 2
  | .word => 4

/-- The number of bytes a store writes. -/
def StoreKind.width : StoreKind → UInt32
  | .byte => 1
  | .half => 2
  | .word => 4

/-- The operation on two values that an immediate operation applies. -/
def ImmOp.alu : ImmOp → AluOp
  | .addi => .add
  | .slti => .slt
  | .sltiu => .sltu
  | .xori => .xor
  | .ori => .or
  | .andi => .and
  | .slli => .sll
  | .srli => .srl
  | .srai => .sra

namespace Instruction

/-! ### Operands -/

/-- The encoding layout of an instruction. -/
def layout : Instruction → Layout
  | .upper .. => .u
  | .jal .. => .j
  | .branch .. => .b
  | .store .. => .s
  | .register .. => .r
  | .jalr .. | .load .. | .immediate .. | .fence | .ecall | .ebreak => .i

/-- The register written, `x0` if there is none. -/
def rd : Instruction → Reg
  | .upper _ rd _ | .jal rd _ | .jalr rd _ _ | .load _ rd _ _ | .immediate _ rd _ _
  | .register _ rd _ _ => rd
  | .branch .. | .store .. | .fence | .ecall | .ebreak => .zero

/-- The first register read, `x0` if there is none. -/
def rs1 : Instruction → Reg
  | .jalr _ rs1 _ | .branch _ rs1 _ _ | .load _ _ rs1 _ | .store _ rs1 _ _ | .immediate _ _ rs1 _
  | .register _ _ rs1 _ => rs1
  | .upper .. | .jal .. | .fence | .ecall | .ebreak => .zero

/-- The second register read, `x0` if there is none. -/
def rs2 : Instruction → Reg
  | .branch _ _ rs2 _ | .store _ _ rs2 _ | .register _ _ _ rs2 => rs2
  | .upper .. | .jal .. | .jalr .. | .load .. | .immediate .. | .fence | .ecall | .ebreak => .zero

/-- The immediate, zero if there is none. -/
def imm : Instruction → Int32
  | .upper _ _ imm | .jal _ imm | .jalr _ _ imm | .branch _ _ _ imm | .load _ _ _ imm
  | .store _ _ _ imm | .immediate _ _ _ imm => imm
  | .register .. | .fence | .ecall | .ebreak => 0

/-- Whether the instruction reads memory. -/
def isLoad : Instruction → Bool
  | .load .. => true
  | _ => false

/-- Whether the instruction writes memory. -/
def isStore : Instruction → Bool
  | .store .. => true
  | _ => false

/-- The number of bytes of a memory access, zero for the instructions without one. -/
def accessWidth : Instruction → UInt32
  | .load kind .. => kind.width
  | .store kind .. => kind.width
  | _ => 0

/-! ### Assembler text -/

/-- The name of the instruction in assembler text. -/
def mnemonic : Instruction → String
  | .upper .lui .. => "lui"
  | .upper .auipc .. => "auipc"
  | .jal .. => "jal"
  | .jalr .. => "jalr"
  | .branch .eq .. => "beq"
  | .branch .ne .. => "bne"
  | .branch .lt .. => "blt"
  | .branch .ge .. => "bge"
  | .branch .ltu .. => "bltu"
  | .branch .geu .. => "bgeu"
  | .load .byte .. => "lb"
  | .load .half .. => "lh"
  | .load .word .. => "lw"
  | .load .byteUnsigned .. => "lbu"
  | .load .halfUnsigned .. => "lhu"
  | .store .byte .. => "sb"
  | .store .half .. => "sh"
  | .store .word .. => "sw"
  | .immediate .addi .. => "addi"
  | .immediate .slti .. => "slti"
  | .immediate .sltiu .. => "sltiu"
  | .immediate .xori .. => "xori"
  | .immediate .ori .. => "ori"
  | .immediate .andi .. => "andi"
  | .immediate .slli .. => "slli"
  | .immediate .srli .. => "srli"
  | .immediate .srai .. => "srai"
  | .register .add .. => "add"
  | .register .sub .. => "sub"
  | .register .sll .. => "sll"
  | .register .slt .. => "slt"
  | .register .sltu .. => "sltu"
  | .register .xor .. => "xor"
  | .register .srl .. => "srl"
  | .register .sra .. => "sra"
  | .register .or .. => "or"
  | .register .and .. => "and"
  | .register .mul .. => "mul"
  | .register .mulh .. => "mulh"
  | .register .mulhsu .. => "mulhsu"
  | .register .mulhu .. => "mulhu"
  | .register .div .. => "div"
  | .register .divu .. => "divu"
  | .register .rem .. => "rem"
  | .register .remu .. => "remu"
  | .fence => "fence"
  | .ecall => "ecall"
  | .ebreak => "ebreak"

end Instruction

end ReplayVM
