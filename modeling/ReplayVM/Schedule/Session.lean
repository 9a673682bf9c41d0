import ReplayVM.Schedule.Cancellation
import ReplayVM.Schedule.Job
import ReplayVM.Schedule.Plan

/-!
# Proving sessions

A session prover proves the segments of a session, lifts them and joins the receipts by a plan. A
job is spawned for each segment, and one for each join as soon as both its inputs are there. The
first failure cancels the rest of the session; the other sessions of the prover go on. A number that
does not fit its word stops the program, and every session with it, whatever else failed before.

Jobs advance one at a time. Which of the outstanding ones advances is up to the workers; a single
worker takes them in the order in which they were spawned, each to its end.

## Main definitions

* `SessionState`, `SessionState.advance`: one stage of one outstanding job.
* `SessionState.runInOrder`: a single worker.
* `SessionProver`, `SessionProver.make`, `SessionProver.proveSession`.
-/

namespace ReplayVM

/-- A job of a node of the plan. -/
structure Task where
  node : Nat
  state : JobState

/-- A session that is being proven. -/
structure SessionState where
  plan : JoinPlan SuccinctReceipt
  /-- The jobs that have not ended, in the order in which they were spawned. -/
  outstanding : List Task
  budget : MemoryBudget
  cancellations : Cancellations
  failure : Option (Stop PipelineError) := none

namespace SessionState

/-- The jobs of the segments, whose nodes come first. -/
def start (strategy : ReductionStrategy) (budget : MemoryBudget) (cancellations : Cancellations)
    (segments : List Segment) : SessionState where
  plan := .make strategy segments.length
  outstanding := segments.zipIdx.map fun (segment, node) => ⟨node, .queued (.prove segment)⟩
  budget := budget
  cancellations := cancellations

variable (token : CancellationToken)

/-- Ends a session early. -/
def fail (s : SessionState) (cause : Stop PipelineError) : SessionState :=
  { s with cancellations := s.cancellations.cancel token, failure := some cause }

/-- Spawns the job of a join whose inputs are there. -/
def spawnJoin (s : SessionState) (node : Nat) : SessionState :=
  match s.plan.takeInputs node with
  | some ((left, right), plan) =>
    { s with plan := plan, outstanding := s.outstanding ++ [⟨node, .queued (.join left right)⟩] }
  | none => s.fail token (.reported (.workerPool (.scheduledTwice node)))

/-- Takes in the receipt of a node. -/
def complete (s : SessionState) (node : Nat) (receipt : SuccinctReceipt) : SessionState :=
  let (plan, ready) := s.plan.complete node receipt
  match ready with
  | none => { s with plan := plan }
  | some join => spawnJoin token { s with plan := plan } join

/-- Takes in the result of the job of a node. After a failure, results are dropped; what stops the
program is not. -/
def finish (s : SessionState) (node : Nat) :
    Except (Stop PipelineError) SuccinctReceipt → SessionState
  | .error .overflow => s.fail token .overflow
  | .error (.reported cause) =>
    if s.failure.isSome then s else s.fail token (.reported cause)
  | .ok receipt => if s.failure.isSome then s else s.complete token node receipt

/-- Advances the outstanding job at a position by one stage. -/
def advance (o : ProverOptions) (position : Nat) (s : SessionState) : SessionState :=
  match s.outstanding[position]? with
  | none => s
  | some task =>
    match task.state.advance o (s.cancellations.isCancelled token) s.budget with
    | .blocked budget => { s with budget := budget }
    | .running state budget =>
      { s with
        outstanding := s.outstanding.set position { task with state := state }
        budget := budget }
    | .finished result budget =>
      { s with outstanding := s.outstanding.eraseIdx position, budget := budget }.finish token
        task.node result

/-- A single worker: the first outstanding job advances, for a number of stages. -/
def runInOrder (o : ProverOptions) : (stages : Nat) → SessionState → SessionState
  | 0, s => s
  | stages + 1, s =>
    if s.outstanding.isEmpty then s else runInOrder o stages (s.advance token o 0)

/-- The result of a session without outstanding jobs. -/
def result (s : SessionState) : Except (Stop PipelineError) SuccinctReceipt :=
  match s.failure with
  | some cause => .error cause
  | none =>
    match s.plan.rootResult with
    | some receipt => .ok receipt
    | none => .error (.reported (.workerPool .noRoot))

/-- The largest number of stages of all jobs of a session, three for each node of the plan. -/
def maxStages (s : SessionState) : Nat := 3 * s.plan.nodes.size

end SessionState

/-! ### Session provers -/

/-- A prover of sessions. -/
structure SessionProver where
  options : ProverOptions
  budget : MemoryBudget
  cancellations : Cancellations
  /-- The token that cancels every session of the prover. -/
  token : CancellationToken

namespace SessionProver

/-- A prover with options that pass their check. -/
def make (o : ProverOptions) : Except PipelineError SessionProver := do
  o.validate.mapError .options
  let (token, cancellations) := Cancellations.root {}
  return {
    options := o
    budget := .full o.memoryBudget.toNat
    cancellations := cancellations
    token := token }

/-- Cancels every session of a prover. -/
def cancel (p : SessionProver) : SessionProver :=
  { p with cancellations := p.cancellations.cancel p.token }

/-- Whether the sessions of a prover are cancelled. -/
def isCancelled (p : SessionProver) : Bool := p.cancellations.isCancelled p.token

/-- Proves a session and joins the receipts into one. A session has a token of its own, below that
of the prover. -/
def proveSession (p : SessionProver) (segments : List Segment) :
    Except (Stop PipelineError) SuccinctReceipt × SessionProver :=
  if segments.isEmpty then (.error (.reported (.recursion .emptyInput)), p)
  else
    let (token, cancellations) := p.cancellations.child p.token
    let s := SessionState.start p.options.reduction p.budget cancellations segments
    let s := s.runInOrder token p.options s.maxStages
    (s.result, { p with budget := s.budget, cancellations := s.cancellations })

end SessionProver

end ReplayVM
