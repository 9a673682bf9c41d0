import ReplayVM.Isa.Instruction
import ReplayVM.Text.Hex

/-!
# Disassembly

The assembler text of an instruction: the mnemonic, then its operands separated by commas. Loads,
stores and indirect jumps write their address as an offset before a register in parentheses, upper
instructions write the twenty bits of their immediate in hexadecimal, all others write it in signed
decimal.
-/

namespace ReplayVM.Instruction

private def decimal (imm : Int32) : String := toString imm.toInt

private def address (imm : Int32) (base : Reg) : String :=
  decimal imm ++ "(" ++ base.name ++ ")"

/-- The operands of an instruction, in the order of its assembler text. -/
def operands : Instruction → List String
  | .upper _ rd imm => [rd.name, Hex.ofNat (imm.toUInt32.toNat / 4096)]
  | .jal rd imm => [rd.name, decimal imm]
  | .jalr rd rs1 imm | .load _ rd rs1 imm => [rd.name, address imm rs1]
  | .branch _ rs1 rs2 imm => [rs1.name, rs2.name, decimal imm]
  | .store _ rs1 rs2 imm => [rs2.name, address imm rs1]
  | .immediate _ rd rs1 imm => [rd.name, rs1.name, decimal imm]
  | .register _ rd rs1 rs2 => [rd.name, rs1.name, rs2.name]
  | .fence | .ecall | .ebreak => []

/-- The assembler text of an instruction. -/
def text (inst : Instruction) : String :=
  match inst.operands with
  | [] => inst.mnemonic
  | operands => inst.mnemonic ++ " " ++ String.intercalate ", " operands

end ReplayVM.Instruction
