import ReplayVM.Machine
import ReplayVM.Params
import ReplayVM.Step.Alu
import ReplayVM.Step.Bus

/-!
# Execution in place

An instruction works on the machine and the bus as they are: it reads and overwrites registers,
absorbs bytes into the journal and asks the bus, one after the other, until it ends or faults. A
fault takes nothing back: the machine and the bus stay as they were left.

## Main definitions

* `Exec`: work on a machine and a bus that may fault.
* `Exec.setReg`, `Exec.overwrite`, `Exec.jump`, `Exec.absorb`: changes of the machine.
* `Exec.fetch`, `Exec.load`, `Exec.store`, `Exec.call`: questions to the bus.
* `Exec.checkAccess`, `Instruction.dataAddress`: accesses to memory.
-/

namespace ReplayVM

/-- The longest journal, in bytes. -/
def maxOutputLen : Nat := 1 <<< 20

namespace Machine

/-- The machine with another program counter. -/
def jump (m : Machine) (pc : UInt32) : Machine := { m with cpu := m.cpu.jump pc }

/-- The machine past a word-long instruction. -/
def advance (m : Machine) : Machine := m.jump (m.cpu.pc + 4)

/-- The machine with another register value; `x0` stays zero. -/
def setReg (m : Machine) (r : Reg) (value : UInt32) : Machine :=
  { m with cpu := m.cpu.setReg r value }

/-- Whether an instruction can be fetched at an address. -/
def canFetch (params : Params) (pc : UInt32) : Bool := pc % 4 = 0 && params.isValidAddr pc

end Machine

/-- The address that a load or store accesses. -/
def Instruction.dataAddress (inst : Instruction) (cpu : Cpu) : Option UInt32 :=
  match inst with
  | .load _ _ rs1 imm | .store _ rs1 _ imm => some (cpu.reg rs1 + imm.toUInt32)
  | _ => none

/-- The address of the word around an address. -/
def alignDown (addr : UInt32) : UInt32 := addr &&& ~~~3

/-- Refuses an access that is misaligned or, failing that, outside the address space. -/
def checkAccess (params : Params) (addr width : UInt32) : Except FaultReason Unit :=
  if addr % width ≠ 0 then .error (.misalignedAccess addr)
  else if !params.isValidAddr addr then .error (.memoryOutOfBounds addr)
  else .ok ()

/-- Work on a machine and a bus. It ends with a value or a fault, and either way with the machine
and the bus as it leaves them. -/
abbrev Exec (σ α : Type) : Type := ExceptT FaultReason (StateM (Machine × σ)) α

namespace Exec

variable {σ : Type}

/-- The machine as it is. -/
def machine : Exec σ Machine := do return (← get).1

/-- Changes the machine. -/
def update (f : Machine → Machine) : Exec σ Unit := modify fun (m, s) => (f m, s)

/-- Writes a register; writes to `x0` are lost. -/
def setReg (r : Reg) (value : UInt32) : Exec σ Unit := update fun m => m.setReg r value

/-- Overwrites a register. -/
def overwrite (r : Reg) (value : UInt32) : Exec σ Unit :=
  update fun m => { m with cpu := m.cpu.overwrite r value }

/-- Moves the program counter. -/
def jump (pc : UInt32) : Exec σ Unit := update fun m => m.jump pc

/-- Appends bytes to the journal. -/
def absorb (bytes : Bytes) : Exec σ Unit :=
  update fun m => { m with output := m.output.absorb bytes }

variable (bus : Bus σ)

/-- Asks the bus. -/
def ask {α : Type} (question : σ → α × σ) : Exec σ α :=
  modifyGet fun (m, s) =>
    let (answer, s) := question s
    (answer, m, s)

/-- The instruction word at a program counter. -/
def fetch (pc : UInt32) : Exec σ UInt32 := ask fun s => bus.fetch s pc

/-- The data word at an address. -/
def load (addr : UInt32) : Exec σ UInt32 := ask fun s => bus.load s addr

/-- Overwrites the data word at an address. -/
def store (addr value : UInt32) : Exec σ Unit := ask fun s => ((), bus.store s addr value)

/-- The answer of the host. -/
def call (request : HostCall) : Exec σ HostReply := ask fun s => bus.call s request

end Exec

end ReplayVM
