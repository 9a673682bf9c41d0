import ReplayVM.Execution.Options
import ReplayVM.Json.Form
import ReplayVM.Program.Error
import ReplayVM.Schedule.Job

/-!
# JSON of errors

An error is an object of its kind and its wording. The kinds of a type of errors are its
alternatives; what a wrapped error is, its wrapper is.

## Main definitions

* `Json.failure`.
* `Json.stopped`: a program that stops without an error of its own.
* `Failure`: the types of errors, with the JSON of each.
-/

namespace ReplayVM

/-- An error of a kind, with its wording. -/
def Json.failure (kind message : String) : Json :=
  .obj [("error", .str kind), ("message", .str message)]

/-- What is left of a program that stops without an error of its own. -/
def Json.stopped : Json := .obj [("error", .str "panic")]

/-- A type of errors. -/
class Failure (ε : Type) where
  toJson : ε → Json

namespace Failure

/-- The errors of a type with kinds and wordings. -/
@[reducible] def of {ε : Type} (kind message : ε → String) : Failure ε :=
  ⟨fun e => .failure (kind e) (message e)⟩

instance : Failure ParamsError :=
  of (fun
    | .memoryBits _ => "MemoryBits"
    | .pageSize _ => "PageSize"
    | .segmentPo2 _ => "SegmentPo2") ParamsError.message

instance : Failure HexError := of (fun _ => "Hex") HexError.message

instance : Failure ProgramError :=
  of (fun
    | .format _ => "Format"
    | .isa _ => "UnsupportedIsa"
    | .tooLarge _ => "TooLarge"
    | .params _ => "Params") ProgramError.message

instance : Failure CodecError :=
  of (fun
    | .trailingBytes _ => "TrailingBytes"
    | _ => "Decode") CodecError.message

instance : Failure ExecutionError :=
  of (fun
    | .invalidSegmentLimit _ _ => "InvalidSegmentLimit"
    | .inputTooLarge _ _ => "InputTooLarge"
    | .invalidPagingBudget _ => "InvalidPagingBudget"
    | .fault _ => "Fault") ExecutionError.message

instance : Failure ProverError :=
  of (fun
    | .params _ | .inconsistent _ _ => "Proving"
    | .resourceExhausted _ _ => "ResourceExhausted"
    | .cancelled => "Cancelled") ProverError.message

instance : Failure VerificationError :=
  of (fun
    | .malformedSeal _ => "MalformedSeal"
    | .configMismatch => "ConfigMismatch"
    | .traceRootMismatch => "TraceRootMismatch"
    | .invalidTransition _ _ => "InvalidTransition"
    | .boundary _ => "Boundary"
    | .exitMismatch _ => "ExitMismatch") VerificationError.message

instance : Failure RecursionError :=
  of (fun
    | .invalidReceipt _ => "InvalidReceipt"
    | .configMismatch => "ConfigMismatch"
    | .chainMismatch _ => "ChainMismatch"
    | .developmentSeal => "DevModeSeal"
    | .emptyInput => "EmptyInput") RecursionError.message

instance : Failure StrategyError := of (fun _ => "Strategy") StrategyError.message

instance : Failure OptionsError where
  toJson
    | .malformed => .obj [("error", .str "Parse")]
    | e => .failure "Options" e.message

instance : Failure PipelineError where
  toJson
    | .prover e => toJson e
    | .recursion e => toJson e
    | e@(.options _) => .failure "Options" e.message
    | e@(.workerPool _) => .failure "WorkerPool" e.message

instance : Failure FormError where
  toJson
    | .malformed => .obj [("error", .str "Malformed")]
    | .refused cause => toJson cause

end Failure

end ReplayVM
