import ReplayVM.Digest.Preimage
import ReplayVM.Isa.Register

/-!
# Machine state

The state of the machine is its registers, what it has written to the journal, and its memory. The
journal enters the state as a running hash, which absorbs one byte after another and so does not
depend on how the bytes were written; the memory enters a commitment as the root of its tree.

## Main definitions

* `Cpu`: program counter and registers.
* `Output`, `Output.absorb`, `journalDigest`: the running hash of the journal.
* `Machine`: registers and journal, the part of the state besides memory.
* `SystemState`, `SystemState.commitment`: a whole state, with its memory as a root.
-/

namespace ReplayVM

/-! ### Registers -/

/-- The registers of the machine. -/
structure Cpu where
  pc : UInt32
  regs : Vector UInt32 32
  deriving DecidableEq

namespace Cpu

/-- All registers zero, at the given program counter. -/
def start (pc : UInt32) : Cpu := ⟨pc, Vector.replicate 32 0⟩

/-- The value of a register. -/
def reg (cpu : Cpu) (r : Reg) : UInt32 := cpu.regs[r]

/-- Overwrites a register. -/
def overwrite (cpu : Cpu) (r : Reg) (value : UInt32) : Cpu :=
  { cpu with regs := cpu.regs.set r value }

/-- Writes a register; writes to `x0` are lost. -/
def setReg (cpu : Cpu) (r : Reg) (value : UInt32) : Cpu :=
  if r = .zero then cpu else cpu.overwrite r value

/-- Moves the program counter. -/
def jump (cpu : Cpu) (pc : UInt32) : Cpu := { cpu with pc := pc }

end Cpu

/-! ### Journal -/

/-- The length of the journal and its running hash. -/
structure Output where
  len : UInt32 := 0
  digest : Digest := .zero
  deriving DecidableEq

namespace Output

/-- The bytes hashed when one more byte is absorbed. -/
def linkBytes (d : Digest) (b : UInt8) : Bytes := d.toBytes ++ [b]

/-- The running hash after one more byte. -/
def link (d : Digest) (b : UInt8) : Digest := Digest.hash (linkBytes d b)

/-- Appends bytes to the journal. -/
def absorb (o : Output) (bytes : Bytes) : Output where
  len := o.len + bytes.length.toUInt32
  digest := bytes.foldl link o.digest

end Output

/-- The running hash of a whole journal. -/
def journalDigest (bytes : Bytes) : Digest := (Output.absorb {} bytes).digest

/-- Registers and journal. -/
structure Machine where
  cpu : Cpu
  output : Output
  deriving DecidableEq

/-! ### Commitments -/

/-- A whole state of the machine, its memory given by the root of its tree. -/
structure SystemState where
  pc : UInt32
  regs : Vector UInt32 32
  memoryRoot : Digest
  outputLen : UInt32
  outputDigest : Digest
  deriving DecidableEq

namespace SystemState

/-- The state of a machine over a memory with the given root. -/
def of (m : Machine) (memoryRoot : Digest) : SystemState where
  pc := m.cpu.pc
  regs := m.cpu.regs
  memoryRoot := memoryRoot
  outputLen := m.output.len
  outputDigest := m.output.digest

/-- The registers and the journal of a state. -/
def machine (s : SystemState) : Machine := ⟨⟨s.pc, s.regs⟩, ⟨s.outputLen, s.outputDigest⟩⟩

/-- The fields of a state, in the order in which they are hashed. -/
def fields (s : SystemState) : List Field :=
  .word s.pc :: s.regs.toList.map .word ++
    [.digest s.memoryRoot, .word s.outputLen, .digest s.outputDigest]

/-- What is hashed for a state. -/
def preimage (s : SystemState) : Preimage := ⟨"zkc.state.v1", s.fields⟩

/-- The commitment to a state. -/
def commitment (s : SystemState) : Digest := s.preimage.digest

end SystemState

end ReplayVM
