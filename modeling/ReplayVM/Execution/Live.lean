import ReplayVM.Execution.Input
import ReplayVM.Memory.Basic
import ReplayVM.Step.Basic

/-!
# Running machines

A running machine has its memory and its input behind the bus. Besides registers, journal hash and
memory it keeps the bytes of the journal, the answers of the host since the segment started, and the
number of instructions executed.

## Main definitions

* `World`, `World.bus`: memory and input behind the bus.
* `Live`, `Live.step`: a running machine and one instruction of it.
* `Live.nextPages`: the pages that the next instruction touches.
-/

namespace ReplayVM

/-- What stands behind the bus of a running machine. -/
@[ext]
structure World where
  memory : Memory
  input : Input
  /-- The answers of the host so far. -/
  replies : Array HostReply

/-- The bus of a running machine. -/
def World.bus : Bus World where
  fetch := fun w pc => (w.memory.loadWord pc, w)
  load := fun w addr => (w.memory.loadWord addr, w)
  store := fun w addr value => { w with memory := w.memory.storeWord addr value }
  call := fun w request =>
    let (reply, input) := w.input.answer request
    (reply, { w with input := input, replies := w.replies.push reply })

/-- A running machine. -/
structure Live where
  params : Params
  machine : Machine
  world : World
  /-- The bytes written to the journal. -/
  journal : Array UInt8
  /-- The number of instructions executed in this run. -/
  cycles : Nat

namespace Live

/-- The state of a running machine. -/
def state (s : Live) : SystemState := .of s.machine s.world.memory.root

/-- The bytes that an instruction wrote to the journal: as many low bytes of the register `a0` as
the journal became longer. -/
def written (before after : Machine) : Bytes :=
  (Bytes.ofWord (before.cpu.reg .a0)).take (after.output.len - before.output.len).toNat

/-- Executes one instruction. A fault is not counted, and nothing is taken from the machine for the
journal. -/
def step (s : Live) : Except FaultReason StepOutcome × Live :=
  let r := s.machine.step World.bus s.params s.world
  let left := { s with machine := r.machine, world := r.bus }
  match r.result with
  | .error reason => (.error reason, left)
  | .ok outcome =>
    (.ok outcome,
      { left with
        journal := s.journal ++ written s.machine r.machine
        cycles := s.cycles + 1 })

/-- The page of the data that the instruction at the program counter accesses, if it is another
page than the instruction's own. -/
def dataPage (s : Live) : Option UInt32 := do
  let inst ← Instruction.decode (s.world.memory.loadWord s.machine.cpu.pc)
  let addr ← inst.dataAddress s.machine.cpu
  let page := s.params.pageIndex addr
  if s.params.isValidAddr addr ∧ page ≠ s.params.pageIndex s.machine.cpu.pc then some page else none

/-- The pages that the next instruction touches, without repetition: its own and that of its data,
as far as they lie in the address space. -/
def nextPages (s : Live) : List UInt32 :=
  let pc := s.machine.cpu.pc
  if Machine.canFetch s.params pc then s.params.pageIndex pc :: s.dataPage.toList else []

end Live

end ReplayVM
