import ReplayVM.Exit
import ReplayVM.Json.Parser
import ReplayVM.Json.Settings
import ReplayVM.Params

/-!
# Execution options

How long a run and each of its segments may become. Options are checked against the parameters and
the input before a run starts; what is left of them then are the limits that the run observes.

## Main definitions

* `ExecutionOptions`, `ExecutionOptions.parse?`, `ExecutionOptions.listing`.
* `ExecutionError`.
* `RunLimits`, `ExecutionOptions.limits`: the limits of a run, and when there are none.
-/

namespace ReplayVM

/-- The options of a run. -/
structure ExecutionOptions where
  /-- The largest number of instructions of a segment. -/
  segmentLimit : UInt32 := 0x100000
  /-- The number of instructions after which a run faults. -/
  maxCycles : UInt64 := 0x100000000
  /-- The largest number of pages that a segment may touch. -/
  maxSegmentPages : UInt32 := 1024
  /-- The longest input, in bytes. -/
  maxInputSize : UInt64 := 0x1000000
  /-- Whether every instruction is logged. -/
  logStep : Bool := false
  deriving DecidableEq

namespace ExecutionOptions

/-- The default options with another segment limit. -/
def withSegmentLimit (limit : UInt32) : ExecutionOptions := { segmentLimit := limit }

/-- The options by the names they are written down with. -/
def settings : List (Setting ExecutionOptions) :=
  [.of "segment_limit" (Json.below? UInt32.size) fun n o => { o with segmentLimit := n.toUInt32 },
   .of "max_cycles" (Json.below? UInt64.size) fun n o => { o with maxCycles := n.toUInt64 },
   .of "max_segment_pages" (Json.below? UInt32.size) fun n o =>
     { o with maxSegmentPages := n.toUInt32 },
   .of "max_input_size" (Json.below? UInt64.size) fun n o => { o with maxInputSize := n.toUInt64 },
   .of "log_step" Json.bool? fun b o => { o with logStep := b }]

/-- The options of a JSON text. -/
def parse? (text : String) : Option ExecutionOptions := do
  readSettings settings {} (← Json.parse? text)

/-- The options, one on a line. -/
def listing (o : ExecutionOptions) : String :=
  s!"SEGMENT_LIMIT: {o.segmentLimit}\n" ++ s!"MAX_CYCLES: {o.maxCycles}\n" ++
    s!"MAX_SEGMENT_PAGES: {o.maxSegmentPages}\n" ++ s!"MAX_INPUT_SIZE: {o.maxInputSize}\n" ++
    s!"LOG_STEP: {o.logStep}\n"

end ExecutionOptions

/-- Why a run does not start, or why its end is taken for an error. -/
inductive ExecutionError where
  | invalidSegmentLimit (limit : UInt32) (max : Nat)
  | inputTooLarge (size : Nat) (max : UInt64)
  | invalidPagingBudget (pages : UInt32)
  /-- The guest faulted. -/
  | fault (reason : FaultReason)
  deriving DecidableEq

/-- The wording of an error. -/
def ExecutionError.message : ExecutionError → String
  | .invalidSegmentLimit limit max => s!"segment limit {limit} outside [1, {max}]"
  | .inputTooLarge size max => s!"input of {size} bytes exceeds the limit of {max}"
  | .invalidPagingBudget pages => s!"paging budget of {pages} pages, at least 2 are needed"
  | .fault reason => "guest fault: " ++ reason.message

/-- The limits that a run observes. A segment has room for at least one instruction, so that a run
makes progress. -/
structure RunLimits where
  segmentLimit : Nat
  maxCycles : Nat
  maxSegmentPages : Nat
  segmentLimit_pos : 0 < segmentLimit

/-- The limits of a run under the given parameters on an input of the given size. The segment limit
is checked first, then the input, then the paging budget. -/
def ExecutionOptions.limits (o : ExecutionOptions) (params : Params) (inputSize : Nat) :
    Except ExecutionError RunLimits :=
  if h : o.segmentLimit.toNat = 0 ∨ params.maxSegmentCycles < o.segmentLimit.toNat then
    .error (.invalidSegmentLimit o.segmentLimit params.maxSegmentCycles)
  else if o.maxInputSize.toNat < inputSize ∨ UInt32.size ≤ inputSize then
    .error (.inputTooLarge inputSize o.maxInputSize)
  else if o.maxSegmentPages < 2 then .error (.invalidPagingBudget o.maxSegmentPages)
  else
    .ok {
      segmentLimit := o.segmentLimit.toNat
      maxCycles := o.maxCycles.toNat
      maxSegmentPages := o.maxSegmentPages.toNat
      segmentLimit_pos := Nat.pos_of_ne_zero fun h0 => h (.inl h0) }

end ReplayVM
