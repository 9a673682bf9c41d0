import ReplayVM.Exit

/-!
# The bus

An instruction reaches memory and the host through a bus, and does not know what stands behind it:
live memory and the session's input, a recorder that keeps the words it saw, or the witness values
of one row of a trace. A bus is a state with four operations.

## Main definitions

* `HostCall`, `HostReply`: what the guest asks of the host, and the answer.
* `Bus`: the operations on a bus with a given state.
* `StepOutcome`: how an instruction ends that does not fault.
-/

namespace ReplayVM

/-- What the guest can ask of the host. -/
inductive HostCall where
  /-- The next bytes of the input. -/
  | read
  /-- The number of bytes of input left. -/
  | inputLen
  deriving DecidableEq

/-- The values that a host call puts into the registers `a0` and `a1`. -/
structure HostReply where
  a0 : UInt32 := 0
  a1 : UInt32 := 0
  deriving DecidableEq

/-- The operations on a bus with states in `σ`. Addresses are word-aligned. -/
structure Bus (σ : Type) where
  /-- The instruction word at a program counter. -/
  fetch : σ → (pc : UInt32) → UInt32 × σ
  /-- The data word at an address. -/
  load : σ → (addr : UInt32) → UInt32 × σ
  /-- Overwrites the data word at an address. -/
  store : σ → (addr value : UInt32) → σ
  /-- The answer of the host. -/
  call : σ → HostCall → HostReply × σ

/-- How an instruction ends that does not fault. -/
inductive StepOutcome where
  | next
  | halted (code : UInt32)
  | paused (code : UInt32)
  /-- The guest asks for a segment boundary after the instruction. -/
  | yielded
  deriving DecidableEq

/-- The name of an outcome, then its argument. -/
def StepOutcome.diagnostic : StepOutcome → String
  | .next => "Continue"
  | .halted code => s!"Halted({code})"
  | .paused code => s!"Paused({code})"
  | .yielded => "Yielded"

/-- The diagnostic text of what an instruction gives. -/
def StepOutcome.resultDiagnostic : Except FaultReason StepOutcome → String
  | .ok outcome => "Ok(" ++ outcome.diagnostic ++ ")"
  | .error reason => "Err(" ++ reason.diagnostic ++ ")"

end ReplayVM
