import ReplayVM.Isa.Decode
import ReplayVM.Step.Exec

/-!
# One step

A step fetches the word at the program counter, decodes it and performs the instruction on the
machine and the bus. An instruction makes its checks before it changes anything, and moves the
program counter last.

## Main definitions

* `Exec.fetchInstruction`: the instruction at the program counter.
* `Exec.syscall`, `Instruction.perform`: system calls and instructions.
* `StepResult`, `Machine.step`: one step of a machine on a bus.
-/

namespace ReplayVM

variable {σ : Type}

namespace Exec

/-- Fetches and decodes the instruction at the program counter. -/
def fetchInstruction (bus : Bus σ) (params : Params) : Exec σ Instruction := do
  let pc := (← machine).cpu.pc
  if !Machine.canFetch params pc then throw (.instructionFault pc)
  let word ← fetch bus pc
  match Instruction.decode word with
  | none => throw (.illegalInstruction pc word)
  | some inst => return inst

/-- A system call whose answer the host gives, in `a0` and `a1`. -/
def hostCall (bus : Bus σ) (request : HostCall) : Exec σ StepOutcome := do
  let reply ← call bus request
  overwrite .a0 reply.a0
  overwrite .a1 reply.a1
  return .next

/-- A system call: the number in `a7`, the arguments in `a0` and `a1`. -/
def syscall (bus : Bus σ) : Exec σ StepOutcome := do
  let m ← machine
  let a0 := m.cpu.reg .a0
  let a1 := m.cpu.reg .a1
  match m.cpu.reg .a7 with
  | 0 => return .halted a0
  | 1 => return .paused a0
  | 2 => return .yielded
  | 3 => hostCall bus .read
  | 4 =>
    if a1 > 4 then throw (.invalidSyscallArgs 4)
    if m.output.len.toNat + a1.toNat > maxOutputLen then throw .outputLimitExceeded
    absorb ((Bytes.ofWord a0).take a1.toNat)
    return .next
  | 5 => hostCall bus .inputLen
  | id => throw (.unknownSyscall id)

end Exec

open Exec in
/-- What an instruction does. Its operands are read before anything is written. -/
def Instruction.perform (bus : Bus σ) (params : Params) (inst : Instruction) :
    Exec σ StepOutcome := do
  let cpu := (← machine).cpu
  let next := cpu.pc + 4
  match inst with
  | .upper .lui rd imm =>
    setReg rd imm.toUInt32
    jump next
  | .upper .auipc rd imm =>
    setReg rd (cpu.pc + imm.toUInt32)
    jump next
  | .jal rd imm =>
    setReg rd next
    jump (cpu.pc + imm.toUInt32)
  | .jalr rd rs1 imm =>
    let target := (cpu.reg rs1 + imm.toUInt32) &&& ~~~1
    setReg rd next
    jump target
  | .branch condition rs1 rs2 imm =>
    jump (if condition.holds (cpu.reg rs1) (cpu.reg rs2) then cpu.pc + imm.toUInt32 else next)
  | .load kind rd rs1 imm =>
    let addr := cpu.reg rs1 + imm.toUInt32
    checkAccess params addr kind.width
    let word ← Exec.load bus (alignDown addr)
    setReg rd (kind.extract addr word)
    jump next
  | .store kind rs1 rs2 imm =>
    let addr := cpu.reg rs1 + imm.toUInt32
    checkAccess params addr kind.width
    let old ← Exec.load bus (alignDown addr)
    Exec.store bus (alignDown addr) (kind.merge addr (cpu.reg rs2) old)
    jump next
  | .immediate op rd rs1 imm =>
    setReg rd (op.alu.eval (cpu.reg rs1) imm.toUInt32)
    jump next
  | .register op rd rs1 rs2 =>
    setReg rd (op.eval (cpu.reg rs1) (cpu.reg rs2))
    jump next
  | .fence => jump next
  | .ecall =>
    let outcome ← syscall bus
    jump next
    return outcome
  | .ebreak => throw (.breakpoint cpu.pc)
  return .next

/-- What a step gives: an outcome or a fault, the machine after it, and the state of the bus. -/
structure StepResult (σ : Type) where
  result : Except FaultReason StepOutcome
  machine : Machine
  bus : σ

/-- One step of a machine. -/
def Machine.step (bus : Bus σ) (params : Params) (m : Machine) (s : σ) : StepResult σ :=
  let instruction : Exec σ StepOutcome := do
    let inst ← Exec.fetchInstruction bus params
    inst.perform bus params
  let (result, m, s) := instruction.run.run (m, s)
  ⟨result, m, s⟩

end ReplayVM
