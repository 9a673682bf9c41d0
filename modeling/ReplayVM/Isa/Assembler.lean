import ReplayVM.Isa.Listing

/-!
# Assembler

Instructions by mnemonic, with their operands as integers in the order of the written form: the
destination first, or for stores and branches the two sources. A register is named by the five low
bits of its number, an immediate is taken modulo `2 ^ 32`.

## Main definitions

* `Instruction.assemble?`: the instruction of a mnemonic and its operands.
* `Instruction.jump?`: a jump or branch that still waits for its offset.
-/

namespace ReplayVM

namespace Reg

/-- The register whose number has the given five low bits. -/
def ofInt (n : Int) : Reg := ofNat (n % 32).toNat

end Reg

namespace Instruction

/-- The load of a mnemonic. -/
def loadKind? : String → Option LoadKind
  | "lb" => some .byte
  | "lh" => some .half
  | "lw" => some .word
  | "lbu" => some .byteUnsigned
  | _ => none

/-- The store of a mnemonic. -/
def storeKind? : String → Option StoreKind
  | "sb" => some .byte
  | "sh" => some .half
  | "sw" => some .word
  | _ => none

/-- The branch condition of a mnemonic. -/
def condition? : String → Option Condition
  | "beq" => some .eq
  | "bne" => some .ne
  | "blt" => some .lt
  | "bge" => some .ge
  | "bltu" => some .ltu
  | _ => none

/-- The immediate operation of a mnemonic. -/
def immediateOp? : String → Option ImmOp
  | "addi" => some .addi
  | "andi" => some .andi
  | "slli" => some .slli
  | "srli" => some .srli
  | _ => none

/-- The register operation of a mnemonic. -/
def registerOp? : String → Option AluOp
  | "add" => some .add
  | "sub" => some .sub
  | "xor" => some .xor
  | "mul" => some .mul
  | "divu" => some .divu
  | "remu" => some .remu
  | _ => none

/-- The jump or branch of a mnemonic with the given registers, as a function of its offset. -/
def jump? (name : String) : List Int → Option (Int32 → Instruction)
  | [rd] => if name = "jal" then some (.jal (.ofInt rd)) else none
  | [rs1, rs2] => (condition? name).map fun c => .branch c (.ofInt rs1) (.ofInt rs2)
  | _ => none

/-- The instruction of a mnemonic with one immediate operand of twenty upper bits. -/
def upper? (name : String) (rd upper : Int) : Option Instruction :=
  let imm := Int32.ofInt (upper * 0x1000)
  match name with
  | "lui" => some (.upper .lui (.ofInt rd) imm)
  | "auipc" => some (.upper .auipc (.ofInt rd) imm)
  | "jal" => some (.jal (.ofInt rd) (.ofInt upper))
  | _ => none

/-- The instruction of a mnemonic with three operands. -/
def ternary? (name : String) (a b c : Int) : Option Instruction :=
  let x := Reg.ofInt a
  let y := Reg.ofInt b
  let imm := Int32.ofInt c
  ((registerOp? name).map fun op => .register op x y (.ofInt c)) <|>
    ((immediateOp? name).map fun op => .immediate op x y imm) <|>
    ((loadKind? name).map fun kind => .load kind x y imm) <|>
    ((storeKind? name).map fun kind => .store kind y x imm) <|>
    ((condition? name).map fun condition => .branch condition x y imm) <|>
    (if name = "jalr" then some (.jalr x y imm) else none)

/-- The instructions of a mnemonic and its operands; loading a constant may take two. -/
def assemble? (name : String) : List Int → Option (List Instruction)
  | [] =>
    match name with
    | "ecall" => some [.ecall]
    | "ebreak" => some [.ebreak]
    | _ => none
  | [a, b] =>
    if name = "li" then some (loadConstant (.ofInt a) (UInt32.ofInt b))
    else (upper? name a b).map fun i => [i]
  | [a, b, c] => (ternary? name a b c).map fun i => [i]
  | _ => none

end Instruction

end ReplayVM
