import ReplayVM.Receipt.Reduce
import ReplayVM.Schedule.Budget
import ReplayVM.Schedule.Options

/-!
# Jobs

A session consists of jobs: one proves and lifts a segment, one joins two receipts. A job first
reserves its memory. Proving gives it back before the receipt is lifted; a join keeps it to the end.
A job looks whether its session is cancelled before it reserves, while it proves, and before it
lifts.

## Main definitions

* `PipelineError`.
* `Job`, `Job.demand`: the memory a job reserves.
* `JobState`, `JobState.advance`: the stages of a job.
-/

namespace ReplayVM

/-! ### Errors -/

/-- How the bookkeeping of a session fails. -/
inductive PoolError where
  | scheduledTwice (node : Nat)
  | noRoot
  deriving DecidableEq

/-- The wording of an error. -/
def PoolError.message : PoolError → String
  | .scheduledTwice node => s!"join node {node} scheduled twice"
  | .noRoot => "session finished without a root receipt"

/-- Why a session is not proven. -/
inductive PipelineError where
  | prover (cause : ProverError)
  | recursion (cause : RecursionError)
  | options (cause : OptionsError)
  | workerPool (cause : PoolError)

namespace PipelineError

/-- The wording of an error. -/
def message : PipelineError → String
  | .prover cause => cause.message
  | .recursion cause => cause.message
  | .options cause => "invalid prover options: " ++ cause.message
  | .workerPool cause => "failed to start the worker pool: " ++ cause.message

/-- Whether proving was cancelled. -/
def isCancelled : PipelineError → Bool
  | .prover .cancelled => true
  | _ => false

/-- Whether proving may succeed with more memory. -/
def isResourceExhausted : PipelineError → Bool
  | .prover (.resourceExhausted _ _) => true
  | _ => false

end PipelineError

/-! ### Stages -/

/-- A piece of work of a session. -/
inductive Job where
  | prove (segment : Segment)
  | join (left right : SuccinctReceipt)

/-- The bytes that a job reserves, if they can be computed. The space of a witness is estimated
before anything is known about its segment. -/
def Job.demand (o : ProverOptions) : Job → Option UInt64
  | .prove s => o.segmentMemory.orElse fun _ => s.witnessEstimate
  | .join _ _ => some o.joinMemory

/-- How far a job is, with the memory it holds. -/
inductive JobState where
  | queued (job : Job)
  | working (job : Job) (reserved : Nat)
  /-- The segment is proven and the memory given back. -/
  | lifting (receipt : SegmentReceipt)

/-- What the next stage of a job leads to. -/
inductive JobProgress where
  | running (state : JobState) (budget : MemoryBudget)
  | finished (result : Except (Stop PipelineError) SuccinctReceipt) (budget : MemoryBudget)
  /-- The job waits for memory. -/
  | blocked (budget : MemoryBudget)

namespace JobState

/-- Reserves the memory of a job. -/
def reserve (o : ProverOptions) (cancelled : Bool) (b : MemoryBudget) (job : Job) : JobProgress :=
  if cancelled then .finished (.error (.reported (.prover .cancelled))) b
  else
    match job.demand o with
    | none => .finished (.error .overflow) b
    | some bytes =>
      match b.acquire bytes.toNat cancelled with
      | (.granted, left) => .running (.working job bytes.toNat) left
      | (.refused cause, left) => .finished (.error (.reported (.prover cause))) left
      | (.waiting, left) => .blocked left

/-- Works on a job that holds its memory. -/
def work (cancelled : Bool) (b : MemoryBudget) (job : Job) (reserved : Nat) : JobProgress :=
  let left := b.release reserved
  match job with
  | .prove s =>
    match s.prove b.total fun _ => cancelled with
    | .ok receipt => .running (.lifting receipt) left
    | .error cause => .finished (.error (cause.map .prover)) left
  | .join l r => .finished ((l.join r).mapError (.map .recursion)) left

/-- Lifts the receipt of a segment. -/
def lift (cancelled : Bool) (receipt : SegmentReceipt) :
    Except (Stop PipelineError) SuccinctReceipt :=
  if cancelled then .error (.reported (.prover .cancelled))
  else receipt.lift.mapError fun cause => .reported (.recursion cause)

/-- The next stage of a job. -/
def advance (o : ProverOptions) (cancelled : Bool) (b : MemoryBudget) : JobState → JobProgress
  | .queued job => reserve o cancelled b job
  | .working job reserved => work cancelled b job reserved
  | .lifting receipt => .finished (lift cancelled receipt) b

end JobState

end ReplayVM
