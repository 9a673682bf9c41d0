import ReplayVM.Receipt.Segment
import ReplayVM.Witness.Record
import ReplayVM.Witness.Replay
import ReplayVM.Witness.Root

/-!
# Verifying segment receipts

A segment receipt is accepted when its seal decodes, has the claimed parameters and the claimed
number of rows, commits to its rows, starts and ends in the claimed states, and when every row leads
to the next one with an outcome that the claim allows. If the claim ends in a fault, the last row
must give that fault.

## Main definitions

* `VerificationError`, with the causes `SealError`, `BoundaryError` and `ExitError`.
* `Row.checkNext`, `SegmentClaim.checkRows`: rows that follow each other.
* `SegmentReceipt.verify`.
-/

namespace ReplayVM

/-- What is wrong with the form of a seal. -/
inductive SealError where
  | undecodable (cause : CodecError)
  | rowCount (rows : Nat) (instructions : UInt32)
  deriving DecidableEq

/-- The wording of an error. -/
def SealError.message : SealError → String
  | .undecodable cause => cause.message
  | .rowCount rows instructions => s!"{rows} rows for {instructions} instructions"

/-- Where the rows do not meet the claim. -/
inductive BoundaryError where
  | start
  | finish
  | output
  deriving DecidableEq

/-- The wording of an error. -/
def BoundaryError.message : BoundaryError → String
  | .start => "first row does not match the start state"
  | .finish => "last row does not match the end state"
  | .output => "output digest"

/-- How the rows fail to justify the claimed exit. -/
inductive ExitError where
  | noInstructions (exit : ExitCode)
  | row (index : Nat) (outcome : StepOutcome)
  | finalRow (result : Except FaultReason StepOutcome) (reason : FaultReason)

/-- The wording of an error. -/
def ExitError.message : ExitError → String
  | .noInstructions exit => exit.message ++ " with no instructions"
  | .row index outcome => s!"row {index} gives " ++ outcome.diagnostic
  | .finalRow result reason =>
    "final row gives " ++ StepOutcome.resultDiagnostic result ++ ", claim is " ++ reason.message

/-- Why a segment receipt is not accepted. -/
inductive VerificationError where
  | malformedSeal (cause : SealError)
  | configMismatch
  | traceRootMismatch
  | invalidTransition (row : Nat) (cause : TransitionError)
  | boundary (cause : BoundaryError)
  | exitMismatch (cause : ExitError)

/-- The wording of an error. -/
def VerificationError.message : VerificationError → String
  | .malformedSeal cause => "malformed seal: " ++ cause.message
  | .configMismatch => "seal parameters do not match the claimed config digest"
  | .traceRootMismatch => "trace rows do not match the committed trace root"
  | .invalidTransition row cause => s!"invalid transition at row {row}: " ++ cause.message
  | .boundary cause => "boundary mismatch: " ++ cause.message
  | .exitMismatch cause => "exit code is not justified by the trace: " ++ cause.message

/-! ### Rows -/

/-- Replays a row, whose errors are reported under its index. -/
def Row.replayAt (params : Params) (index : Nat) (r : Row) :
    Except VerificationError (Except FaultReason StepOutcome × SystemState) :=
  (r.replay params).mapError (.invalidTransition index)

namespace SegmentClaim

/-- Whether a claim allows the outcome of a row. -/
def allows (c : SegmentClaim) (index : Nat) (outcome : StepOutcome) : Bool :=
  if index + 1 = c.instructionCount.toNat then c.exitCode.allowsLast outcome
  else outcome = .next

/-- Checks that a row leads to the next one with an outcome that the claim allows. -/
def checkRow (c : SegmentClaim) (params : Params) (index : Nat) (row next : Row) :
    Except VerificationError Unit := do
  let (result, state) ← row.replayAt params index
  match result with
  | .error reason => throw (.invalidTransition index (.faults reason))
  | .ok outcome =>
    if !c.allows index outcome then throw (.exitMismatch (.row index outcome))
    if state.commitment ≠ next.state.commitment then throw (.invalidTransition index .notFollowed)

/-- Checks that each of some rows, numbered from an index on, leads to the one behind it. -/
def checkRows (c : SegmentClaim) (params : Params) :
    (index : Nat) → List Row → Except VerificationError Unit
  | index, row :: next :: rows => do
    c.checkRow params index row next
    c.checkRows params (index + 1) (next :: rows)
  | _, _ => .ok ()

/-- Checks that the last row gives the claimed fault, if the claim ends in a fault of an
instruction. -/
def checkFault (c : SegmentClaim) (params : Params) (last : Row) : Except VerificationError Unit :=
  match c.exitCode.finalFault with
  | none => .ok ()
  | some reason => do
    let (result, _) ← last.replayAt params c.instructionCount.toNat
    match result with
    | .error found =>
      if found = reason then return () else throw (.exitMismatch (.finalRow (.error found) reason))
    | .ok outcome => throw (.exitMismatch (.finalRow (.ok outcome) reason))

/-- Checks that some rows start and end where the claim says. -/
def checkBoundary (c : SegmentClaim) (first last : Row) : Except VerificationError Unit :=
  if first.state.commitment ≠ c.startCommitment then .error (.boundary .start)
  else if last.state.commitment ≠ c.endCommitment then .error (.boundary .finish)
  else if last.state.outputDigest ≠ c.outputDigest then .error (.boundary .output)
  else .ok ()

/-- Checks the parameters and the shape of a seal. -/
def checkShape (c : SegmentClaim) (s : SegmentSeal) : Except VerificationError Unit :=
  if !s.params.validate.isOk || s.params.configDigest ≠ c.configDigest then
    .error .configMismatch
  else if s.params.maxSegmentCycles < c.instructionCount.toNat ∨
      s.rows.length ≠ c.instructionCount.toNat + 1 then
    .error (.malformedSeal (.rowCount s.rows.length c.instructionCount))
  else if c.instructionCount = 0 ∧ c.exitCode.needsInstruction then
    .error (.exitMismatch (.noInstructions c.exitCode))
  else if traceRoot (s.rows.map Row.digest) ≠ s.traceRoot then .error .traceRootMismatch
  else .ok ()

/-- Checks the rows of a seal against a claim. -/
def checkTrace (c : SegmentClaim) (params : Params) (rows : List Row) :
    Except VerificationError Unit :=
  match rows.head?, rows.getLast? with
  | some first, some last => do
    c.checkBoundary first last
    c.checkRows params 0 rows
    c.checkFault params last
  | _, _ => .error (.malformedSeal (.rowCount rows.length c.instructionCount))

/-- Checks a seal against a claim. -/
def checkSeal (c : SegmentClaim) (s : SegmentSeal) : Except VerificationError Unit := do
  c.checkShape s
  c.checkTrace s.params s.rows

end SegmentClaim

namespace SegmentReceipt

/-- The seal of a receipt, if it decodes. -/
def openSeal (r : SegmentReceipt) : Except VerificationError SegmentSeal :=
  r.decodeSeal.mapError fun cause => .malformedSeal (.undecodable cause)

/-- Checks that the seal of a receipt proves its claim. -/
def verify (r : SegmentReceipt) : Except VerificationError Unit := do
  let content ← r.openSeal
  r.claim.checkSeal content

end SegmentReceipt

end ReplayVM
