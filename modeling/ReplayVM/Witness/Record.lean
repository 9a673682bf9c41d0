import ReplayVM.Execution.Segment
import ReplayVM.Overflow
import ReplayVM.Step.Basic
import ReplayVM.Witness.Row

/-!
# Recording witnesses

The witness of a segment is found by executing it again from its snapshot, with the recorded answers
of the host. Each instruction gives a row; one more row holds the end state, and for a segment that
ends in a fault also what the faulting instruction read. A segment whose execution does not bear out
what it states has no witness.

## Main definitions

* `Recorder`, `Recorder.bus`: memory and recorded answers behind the bus, noting what is asked.
* `Inconsistency`: what a segment states and its execution does not bear out.
* `ExitCode.allowsLast`: the outcomes of the last instruction that an exit allows.
* `Segment.witness`: the rows of a segment.
* `Segment.witnessEstimate`: the space they take, for estimates.
-/

namespace ReplayVM

/-! ### The recorder -/

/-- Memory and answers still to be given, and what the current instruction asked so far. -/
structure Recorder where
  memory : Memory
  replies : List HostReply
  fetch : Option FetchWitness := none
  data : Option DataWitness := none
  host : Option HostReply := none
  /-- Whether an answer was asked for when none was left. -/
  exhausted : Bool := false

namespace Recorder

/-- Notes the word an instruction is fetched as. -/
def fetchWord (r : Recorder) (pc : UInt32) : UInt32 × Recorder :=
  let value := r.memory.loadWord pc
  (value, { r with fetch := some ⟨pc, value, r.memory.path pc⟩ })

/-- Notes the first word an instruction loads. -/
def loadWord (r : Recorder) (addr : UInt32) : UInt32 × Recorder :=
  let value := r.memory.loadWord addr
  match r.data with
  | some _ => (value, r)
  | none => (value, { r with data := some ⟨addr, value, value, r.memory.path addr⟩ })

/-- Notes the word that replaces the one loaded before. -/
def storeWord (r : Recorder) (addr value : UInt32) : Recorder :=
  { r with
    memory := r.memory.storeWord addr value
    data := r.data.map fun d => if d.addr = addr then { d with new := value } else d }

/-- Gives and notes the next answer of the host. -/
def reply (r : Recorder) : HostReply × Recorder :=
  match r.replies with
  | [] => ({}, { r with exhausted := true })
  | a :: replies => (a, { r with replies := replies, host := some a })

/-- The bus of a recorder. -/
def bus : Bus Recorder where
  fetch := fetchWord
  load := loadWord
  store := storeWord
  call := fun r _ => r.reply

end Recorder

/-! ### Exits -/

/-- Whether an exit allows an outcome of the last instruction. -/
def ExitCode.allowsLast : ExitCode → StepOutcome → Bool
  | .halted code, outcome => outcome = .halted code
  | .paused code, outcome => outcome = .paused code
  | .systemSplit, outcome => outcome = .next || outcome = .yielded
  | .fault _, outcome => outcome = .next

/-- The fault of a further instruction that an exit states. Running out of cycles is no fault of an
instruction. -/
def ExitCode.finalFault : ExitCode → Option FaultReason
  | .fault .sessionLimitExceeded => none
  | .fault reason => some reason
  | _ => none

/-- What a segment states and its execution does not bear out. -/
inductive Inconsistency where
  | configMismatch
  | tooLong (count : UInt32) (limit : Nat)
  | startMismatch
  /-- The exit needs an instruction and there is none. -/
  | noInstructions (exit : ExitCode)
  | faults (row : Nat) (reason : FaultReason)
  | outOfReplies (row : Nat)
  | stopsEarly (row : Nat)
  | lastOutcome (outcome : StepOutcome) (exit : ExitCode)
  | repliesLeft
  | finalStep (reason : FaultReason) (result : Except FaultReason StepOutcome)
  | endMismatch
  | outputMismatch

/-- The wording of an inconsistency, behind the name of the segment. -/
def Inconsistency.message : Inconsistency → String
  | .configMismatch => "config digest mismatch"
  | .tooLong count limit => s!"has {count} instructions, limit is {limit}"
  | .startMismatch => "start snapshot mismatch"
  | .noInstructions exit => "ends with " ++ exit.message ++ " after no instructions"
  | .faults row reason => s!"faults at row {row}: " ++ reason.message
  | .outOfReplies row => s!"ran out of host replies at row {row}"
  | .stopsEarly row => s!"stops early at row {row}"
  | .lastOutcome outcome exit =>
    "last instruction gives " ++ outcome.diagnostic ++ ", exit code is " ++ exit.message
  | .repliesLeft => "leaves host replies unconsumed"
  | .finalStep reason result =>
    "claims " ++ reason.message ++ ", final step gives " ++ StepOutcome.resultDiagnostic result
  | .endMismatch => "replay does not reach its end state"
  | .outputMismatch => "output digest mismatch"

/-! ### Rows -/

/-- A machine that is executed again: registers and journal, memory, and the answers still to be
given. -/
structure Playback where
  machine : Machine
  memory : Memory
  replies : List HostReply

namespace Playback

/-- The state of a machine that is executed again. -/
def state (p : Playback) : SystemState := .of p.machine p.memory.root

/-- One step behind a fresh recorder. -/
def step (params : Params) (p : Playback) : StepResult Recorder :=
  p.machine.step Recorder.bus params { memory := p.memory, replies := p.replies }

/-- The row of a step. -/
def row (p : Playback) (r : Recorder) : Row := ⟨p.state, r.fetch, r.data, r.host⟩

/-- Executes the instruction of a row, which must not fault and has an answer for each call. -/
def advance (params : Params) (index : Nat) (p : Playback) :
    Except Inconsistency (StepOutcome × Row × Playback) :=
  let r := p.step params
  match r.result with
  | .error reason => .error (.faults index reason)
  | .ok outcome =>
    if r.bus.exhausted then .error (.outOfReplies index)
    else .ok (outcome, p.row r.bus, ⟨r.machine, r.bus.memory, r.bus.replies⟩)

/-- Whether the outcome of a row is what the segment needs: any but the last row goes on, the last
one agrees with the exit. -/
def checkOutcome (exit : ExitCode) (index : Nat) (isLast : Bool) (outcome : StepOutcome) :
    Except Inconsistency Unit :=
  if isLast then
    if exit.allowsLast outcome then .ok () else .error (.lastOutcome outcome exit)
  else if outcome = .next then .ok ()
  else .error (.stopsEarly index)

/-- The rows of a number of instructions, numbered from an index on, and the machine after them. -/
def rows (params : Params) (exit : ExitCode) :
    (count index : Nat) → Playback → Except Inconsistency (List Row × Playback)
  | 0, _, p => .ok ([], p)
  | count + 1, index, p => do
    let (outcome, row, p) ← p.advance params index
    checkOutcome exit index (count = 0) outcome
    let (rows, p) ← rows params exit count (index + 1) p
    return (row :: rows, p)

/-- The row of the end state. -/
def finalRow (params : Params) (exit : ExitCode) (p : Playback) : Except Inconsistency Row :=
  match exit.finalFault with
  | none => .ok ⟨p.state, none, none, none⟩
  | some reason =>
    let r := p.step params
    match r.result with
    | .error found =>
      if found = reason then .ok ⟨p.state, r.bus.fetch, r.bus.data, none⟩
      else .error (.finalStep reason (.error found))
    | .ok outcome => .error (.finalStep reason (.ok outcome))

end Playback

namespace Segment

/-- The machine at the start of a segment. -/
def playback (s : Segment) : Playback :=
  ⟨s.trace.startMachine, s.trace.startMemory, s.trace.hostReplies⟩

/-- The rows of a segment, one more than it has instructions. -/
def witness (s : Segment) : Except Inconsistency (List Row) := do
  if s.instructionCount = 0 ∧ s.exitCode.needsInstruction then
    throw (.noInstructions s.exitCode)
  let (rows, p) ← s.playback.rows s.params s.exitCode s.instructionCount.toNat 0
  if !p.replies.isEmpty then throw .repliesLeft
  let last ← p.finalRow s.params s.exitCode
  if last.state.commitment ≠ s.endCommitment then throw .endMismatch
  if last.state.outputDigest ≠ s.outputDigest then throw .outputMismatch
  return rows ++ [last]

/-- The bytes needed for the snapshot, the rows and their encoding, if their number fits. The
parameters of the segment may not be valid. -/
def witnessEstimate (s : Segment) : Option UInt64 := do
  let depth ← s.params.merkleDepth?
  long? (2 * (s.instructionCount.toNat + 1) * Row.sizeEstimate depth + s.trace.residentBytes)

end Segment

end ReplayVM
