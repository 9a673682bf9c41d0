import ReplayVM.Receipt.Segment
import ReplayVM.Witness.Record
import ReplayVM.Witness.Root

/-!
# Proving segments

A segment is proven by recording its witness. Before that, what the segment states about itself is
checked, and the space that the witness will take is compared with the space allowed. Proving can be
cancelled at three points: at the start, when the rows are there, and when their root is.

## Main definitions

* `ProverError`.
* `Checkpoint`: where proving looks whether it is cancelled.
* `Segment.claim`, `Segment.checkAdmission`: what a segment states, and whether it can be proven.
* `Segment.prove`: the receipt of a segment.
-/

namespace ReplayVM

/-- Why a segment is not proven. -/
inductive ProverError where
  | params (cause : ParamsError)
  | inconsistent (index : UInt32) (cause : Inconsistency)
  /-- The witness takes more space than is allowed. -/
  | resourceExhausted (needed budget : Nat)
  | cancelled

/-- The wording of an error. -/
def ProverError.message : ProverError → String
  | .params cause => "proving error: " ++ cause.message
  | .inconsistent index cause => s!"proving error: segment {index} " ++ cause.message
  | .resourceExhausted needed budget =>
    s!"segment witness needs {needed} bytes, budget is {budget}"
  | .cancelled => "proving cancelled"

/-- Where proving looks whether it is cancelled. -/
inductive Checkpoint where
  | start
  | rows
  | root
  deriving DecidableEq

/-- Stops at a checkpoint that was cancelled before. -/
def Checkpoint.pass (cancelled : Checkpoint → Bool) (c : Checkpoint) :
    Except (Stop ProverError) Unit :=
  if cancelled c then .error (.reported .cancelled) else .ok ()

namespace Segment

/-- What a segment states. -/
def claim (s : Segment) : SegmentClaim where
  configDigest := s.configDigest
  index := s.index
  startCommitment := s.startCommitment
  endCommitment := s.endCommitment
  instructionCount := s.instructionCount
  exitCode := s.exitCode
  outputDigest := s.outputDigest

/-- What a segment states about its parameters, its length and its start. -/
def checkStatement (s : Segment) : Except Inconsistency Unit :=
  if s.params.configDigest ≠ s.configDigest then .error .configMismatch
  else if s.params.maxSegmentCycles < s.instructionCount.toNat then
    .error (.tooLong s.instructionCount s.params.maxSegmentCycles)
  else if s.trace.startState.commitment ≠ s.startCommitment then .error .startMismatch
  else .ok ()

/-- Refuses a segment that is not what it states or whose witness takes too much space. -/
def checkAdmission (budget : Nat) (s : Segment) : Except (Stop ProverError) Unit := do
  s.params.validate.mapError fun cause => .reported (.params cause)
  s.checkStatement.mapError fun cause => .reported (.inconsistent s.index cause)
  let needed ← Stop.fit s.witnessEstimate
  if budget < needed.toNat then throw (.reported (.resourceExhausted needed.toNat budget))

/-- The seal over some rows. -/
def sealOf (s : Segment) (rows : List Row) : SegmentSeal :=
  ⟨s.params, traceRoot (rows.map Row.digest), rows⟩

/-- Proves a segment with so many bytes for its witness. -/
def prove (budget : Nat) (cancelled : Checkpoint → Bool) (s : Segment) :
    Except (Stop ProverError) SegmentReceipt := do
  Checkpoint.start.pass cancelled
  s.checkAdmission budget
  let rows ← s.witness.mapError fun cause => .reported (.inconsistent s.index cause)
  Checkpoint.rows.pass cancelled
  let content := s.sealOf rows
  Checkpoint.root.pass cancelled
  return { claim := s.claim, sealBytes := SegmentSeal.format.encode content }

/-- Proves a segment with all the space there is, to the end. -/
def proveFully (s : Segment) : Except (Stop ProverError) SegmentReceipt :=
  s.prove (UInt64.size - 1) fun _ => false

end Segment

end ReplayVM
