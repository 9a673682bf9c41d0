import ReplayVM.Json.Parser
import ReplayVM.Json.Settings
import ReplayVM.Receipt.Reduce
import ReplayVM.Text.Blank
import ReplayVM.Text.Digits

/-!
# Prover options

How many workers prove a session, how much memory they share, and in which order receipts are
joined. Options come from a machine's defaults, from a JSON text over them, and from overrides by
name over these; they are checked after each of the two.

## Main definitions

* `ProverOptions`, `OptionsError`, `ProverOptions.validate`.
* `ProverOptions.ofText`, `ProverOptions.withOverrides`.
* `ProverOptions.summary`.
-/

namespace ReplayVM

/-- The options of a session prover. -/
structure ProverOptions where
  workers : UInt64
  /-- The bytes that all jobs share. -/
  memoryBudget : UInt64
  reduction : ReductionStrategy := .tree
  /-- What proving a segment takes, if it is not to be estimated. -/
  segmentMemory : Option UInt64 := none
  /-- What a join takes. -/
  joinMemory : UInt64 := 0x10000
  deriving DecidableEq

/-- Why options are refused. -/
inductive OptionsError where
  /-- The text holds no options. -/
  | malformed
  | workersOverride (text : String) (cause : DigitsError)
  | memoryOverride (text : String) (cause : DigitsError)
  | reductionOverride (cause : StrategyError)
  | noWorkers
  | noMemory
  deriving DecidableEq

/-- The wording of an error. -/
def OptionsError.message : OptionsError → String
  | .malformed => "malformed options"
  | .workersOverride text cause => "invalid ZKC_WORKERS '" ++ text ++ "': " ++ cause.message
  | .memoryOverride text cause => "invalid ZKC_MEMORY_BUDGET '" ++ text ++ "': " ++ cause.message
  | .reductionOverride cause => "invalid ZKC_REDUCTION: " ++ cause.message
  | .noWorkers => "workers must be at least 1"
  | .noMemory => "memory_budget must be positive"

/-- The strategy that a value names, as a text or as the only field of an object. -/
def ReductionStrategy.ofJson? (j : Json) : Option ReductionStrategy :=
  let named (name : Option String) := all.find? fun s => some s.name = name
  match j with
  | .text name => named name
  | .object [(name, .null)] => named name
  | _ => none

namespace ProverOptions

/-- Refuses options with which nothing can be proven. -/
def validate (o : ProverOptions) : Except OptionsError Unit :=
  if o.workers = 0 then .error .noWorkers
  else if o.memoryBudget = 0 then .error .noMemory
  else .ok ()

/-- An integer option of 64 bits. -/
def longSetting (name : String) (set : UInt64 → ProverOptions → ProverOptions) :
    Setting ProverOptions :=
  .of name (Json.below? UInt64.size) fun n => set n.toUInt64

/-- The options by the names they are written down with. -/
def settings : List (Setting ProverOptions) :=
  [longSetting "workers" fun n o => { o with workers := n },
   longSetting "memory_budget" fun n o => { o with memoryBudget := n },
   .of "reduction" ReductionStrategy.ofJson? fun s o => { o with reduction := s },
   .of "segment_memory" (Json.nullable? (Json.below? UInt64.size)) fun n o =>
     { o with segmentMemory := n.map Nat.toUInt64 },
   longSetting "join_memory" fun n o => { o with joinMemory := n }]

/-- The options that a JSON value gives over some defaults. -/
def ofJson? (defaults : ProverOptions) (j : Json) : Option ProverOptions :=
  readSettings settings defaults j

/-- The options that a JSON text gives over some defaults. -/
def ofText (defaults : ProverOptions) (text : String) : Except OptionsError ProverOptions := do
  match (Json.parse? text).bind (ofJson? defaults) with
  | none => throw .malformed
  | some o =>
    o.validate
    return o

/-- The number of 64 bits that a text is, with blanks around it. -/
def readOverride (text : String) : Except DigitsError UInt64 :=
  Nat.toUInt64 <$> Digits.readBelow UInt64.size (Blank.trim text)

/-- Applies an override to some options, if it is there. -/
def override (value : Option String)
    (apply : String → ProverOptions → Except OptionsError ProverOptions) (o : ProverOptions) :
    Except OptionsError ProverOptions :=
  match value with
  | none => .ok o
  | some text => apply text o

/-- Some options under the overrides that are given by name. -/
def withOverrides (o : ProverOptions) (lookup : String → Option String) :
    Except OptionsError ProverOptions := do
  let o ← o.override (lookup "ZKC_WORKERS") fun text o => do
    return { o with workers := ← (readOverride text).mapError (.workersOverride text) }
  let o ← o.override (lookup "ZKC_MEMORY_BUDGET") fun text o => do
    return { o with memoryBudget := ← (readOverride text).mapError (.memoryOverride text) }
  let o ← o.override (lookup "ZKC_REDUCTION") fun text o => do
    return { o with
      reduction := ← (ReductionStrategy.parse (Blank.trim text)).mapError .reductionOverride }
  o.validate
  return o

/-- The options on one line. -/
def summary (o : ProverOptions) : String :=
  s!"workers={o.workers} memory_budget={o.memoryBudget} reduction=" ++ o.reduction.name ++
    s!" join_memory={o.joinMemory}" ++
    match o.segmentMemory with
    | some bytes => s!" segment_memory={bytes}"
    | none => ""

end ProverOptions

end ReplayVM
