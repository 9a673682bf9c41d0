import ReplayVM.Machine
import ReplayVM.Memory.Basic
import ReplayVM.Program.Error

/-!
# Programs

A program is the memory a session starts with, an entry point and the parameters it runs under. It
carries two derived digests: the commitment to the state in which its first segment starts, and the
commitment to its parameters. A program that was read from somewhere may carry digests that do not
belong to it; `Program.checkIntegrity` compares them with what they should be.

## Main definitions

* `Program`, `Program.make`.
* `Program.initialMachine`, `Program.initialState`: where execution starts.
* `Program.checkIntegrity`.
-/

namespace ReplayVM

/-- A loaded part of the file, as it is recorded with the program. -/
structure LoadedPart where
  vaddr : UInt32
  fileSize : UInt32
  memSize : UInt32
  flags : UInt32
  deriving DecidableEq

/-- Where a program comes from. -/
structure ProgramInfo where
  /-- The hash of the file, in hexadecimal digits. -/
  fileHash : String
  /-- The loaded parts in the order of the file. -/
  parts : List LoadedPart
  /-- The number of bytes that the parts take in memory. -/
  footprint : UInt64
  deriving DecidableEq

/-- A program. -/
structure Program where
  memory : Memory
  entry : UInt32
  params : Params
  /-- The commitment to the initial state. -/
  entryState : Digest
  /-- The commitment to the parameters. -/
  configDigest : Digest
  info : ProgramInfo

namespace Program

/-- The machine at an entry point: the stack pointer at the end of the address space, every other
register zero, and an empty journal. -/
def machineAt (params : Params) (entry : UInt32) : Machine where
  cpu := (Cpu.start entry).overwrite .sp params.stackTop
  output := {}

/-- The program with the given memory, and the digests that belong to it. -/
def make (memory : Memory) (entry : UInt32) (params : Params) (info : ProgramInfo) : Program where
  memory := memory
  entry := entry
  params := params
  entryState := (SystemState.of (machineAt params entry) memory.root).commitment
  configDigest := params.configDigest
  info := info

/-- The machine in which execution starts. -/
def initialMachine (p : Program) : Machine := machineAt p.params p.entry

/-- The state in which execution starts. -/
def initialState (p : Program) : SystemState := .of p.initialMachine p.memory.root

/-- Refuses a program with parameters out of range, with digests that are not its own, or with a
memory laid out under other parameters. -/
def checkIntegrity (p : Program) : Except ProgramError Unit :=
  match p.params.validate with
  | .error cause => .error (.params cause)
  | .ok () =>
    if p.configDigest ≠ p.params.configDigest then .error (.format .configMismatch)
    else if p.memory.pageSize ≠ p.params.pageSize ∨ p.memory.memoryBits ≠ p.params.memoryBits then
      .error (.format .memoryLayoutMismatch)
    else if p.entryState ≠ p.initialState.commitment then .error (.format .entryStateMismatch)
    else .ok ()

end Program

end ReplayVM
