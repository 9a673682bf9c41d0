import ReplayVM.Execution.Run
import ReplayVM.Program.Basic

/-!
# Sessions

A session is one run of a program on an input, or of a paused machine on fresh input. A session that
ends in a pause leaves a continuation, from which the next one starts; segments are numbered, and
the journal grows, along the whole chain.

## Main definitions

* `SessionInfo`, `Continuation`, `Session`.
* `Session.checkExit`: a fault as an error.
* `Program.execute`, `Continuation.resume`.
-/

namespace ReplayVM

/-- The summary of a session. -/
structure SessionInfo where
  exitCode : ExitCode
  /-- The running hash of the journal. -/
  outputDigest : Digest
  /-- The bytes of the journal since the start of the chain. -/
  journal : Bytes
  segmentCount : UInt32
  /-- The number of instructions executed in this session. -/
  totalCycles : UInt64
  deriving DecidableEq

/-- A paused machine. -/
structure Continuation where
  params : Params
  cpu : Cpu
  memory : Memory
  output : Output
  journal : Bytes
  nextSegmentIndex : UInt32

namespace Continuation

/-- The state in which the next segment starts. -/
def state (c : Continuation) : SystemState := .of ⟨c.cpu, c.output⟩ c.memory.root

/-- The commitment to that state. -/
def commitment (c : Continuation) : Digest := c.state.commitment

end Continuation

/-- One run, in segments. -/
structure Session where
  segments : List Segment
  info : SessionInfo
  /-- The paused machine, if the run ended in a pause. -/
  continuation : Option Continuation

namespace Session

/-- Turns a fault of the guest into an error. -/
def checkExit (s : Session) : Except ExecutionError Unit :=
  match s.info.exitCode with
  | .fault reason => .error (.fault reason)
  | _ => .ok ()

/-- The continuation that a run leaves. -/
def continuationOf (e : Live.RunEnd) : Option Continuation :=
  match e.exit with
  | .paused _ => some
    { params := e.live.params
      cpu := e.live.machine.cpu
      memory := e.live.world.memory
      output := e.live.machine.output
      journal := e.live.journal.toList
      nextSegmentIndex := e.nextIndex }
  | _ => none

/-- The session of a run. -/
def ofRun (e : Live.RunEnd) : Session where
  segments := e.segments
  info := {
    exitCode := e.exit
    outputDigest := e.live.machine.output.digest
    journal := e.live.journal.toList
    segmentCount := e.segments.length.toUInt32
    totalCycles := e.live.cycles.toUInt64 }
  continuation := continuationOf e

end Session

/-- The running machine at the start of a program. -/
def Program.live (p : Program) (input : Bytes) : Live where
  params := p.params
  machine := p.initialMachine
  world := { memory := p.memory, input := { bytes := input }, replies := #[] }
  journal := #[]
  cycles := 0

/-- Runs a program on an input. -/
def Program.execute (p : Program) (input : Bytes) (options : ExecutionOptions) :
    Except ExecutionError Session := do
  let limits ← options.limits p.params input.length
  return .ofRun ((p.live input).run limits 0)

/-- The running machine of a continuation. -/
def Continuation.live (c : Continuation) (input : Bytes) : Live where
  params := c.params
  machine := ⟨c.cpu, c.output⟩
  world := { memory := c.memory, input := { bytes := input }, replies := #[] }
  journal := c.journal.toArray
  cycles := 0

/-- Continues a paused machine on fresh input. -/
def Continuation.resume (c : Continuation) (input : Bytes) (options : ExecutionOptions) :
    Except ExecutionError Session := do
  let limits ← options.limits c.params input.length
  return .ofRun ((c.live input).run limits c.nextSegmentIndex)

end ReplayVM
