import ReplayVM.Exit
import ReplayVM.Machine
import ReplayVM.Memory.Basic
import ReplayVM.Step.Bus

/-!
# Segments

A segment is a stretch of a run that is proven on its own. It states where it starts and ends, and
carries a trace: a snapshot of the machine at its start and what the host answered, from which the
stretch can be executed again.

## Main definitions

* `Trace`, `Trace.startState`, `Trace.residentBytes`.
* `Segment`.
-/

namespace ReplayVM

/-- What is needed to execute a segment again. -/
structure Trace where
  startCpu : Cpu
  startMemory : Memory
  startOutput : Output
  /-- The answers of the host, in order. -/
  hostReplies : List HostReply

namespace Trace

/-- The machine at the start. -/
def startMachine (t : Trace) : Machine := ⟨t.startCpu, t.startOutput⟩

/-- The state at the start. -/
def startState (t : Trace) : SystemState := .of t.startMachine t.startMemory.root

/-- The bytes that the snapshot takes, for estimates. -/
def residentBytes (t : Trace) : Nat := t.startMemory.residentBytes + t.hostReplies.length * 8

end Trace

/-- A stretch of a run. -/
structure Segment where
  index : UInt32
  startCommitment : Digest
  endCommitment : Digest
  instructionCount : UInt32
  exitCode : ExitCode
  /-- The running hash of the journal at the end. -/
  outputDigest : Digest
  params : Params
  configDigest : Digest
  trace : Trace

end ReplayVM
