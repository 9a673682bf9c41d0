import ReplayVM.Memory.Basic
import ReplayVM.Step.Basic
import ReplayVM.Witness.Row

/-!
# Replaying rows

A row is replayed by executing its instruction with nothing but the row behind the bus. The words of
the row must be in the memory of its state, every question must be one that the row answers, and
everything in the row must be asked for; then the state that follows is determined, its memory root
included.

## Main definitions

* `Evidence`, `Evidence.bus`: the words and the answer of a row behind the bus.
* `TransitionError`: why a row is no transition.
* `Row.replay`: what the instruction of a row gives, and the state after it.
-/

namespace ReplayVM

/-- What a row holds for the bus, and what was asked for so far. -/
structure Evidence where
  fetch : Option FetchWitness
  data : Option DataWitness
  host : Option HostReply
  fetched : Bool := false
  loaded : Bool := false
  stored : Bool := false
  asked : Bool := false
  /-- Whether something was asked that the row does not answer. -/
  invalid : Bool := false

namespace Evidence

/-- The evidence after a question that it does not answer. -/
def refuse (e : Evidence) : Evidence := { e with invalid := true }

/-- Answers a fetch with the instruction word, once. -/
def fetchWord (e : Evidence) (pc : UInt32) : UInt32 × Evidence :=
  match e.fetch with
  | some f =>
    if f.addr = pc ∧ !e.fetched then (f.value, { e with fetched := true }) else (0, e.refuse)
  | none => (0, e.refuse)

/-- Answers a load with the data word, once. -/
def loadWord (e : Evidence) (addr : UInt32) : UInt32 × Evidence :=
  match e.data with
  | some d =>
    if d.addr = addr ∧ !e.loaded then (d.old, { e with loaded := true }) else (0, e.refuse)
  | none => (0, e.refuse)

/-- Accepts a store of the new data word behind its load, once. -/
def storeWord (e : Evidence) (addr value : UInt32) : Evidence :=
  match e.data with
  | some d =>
    if d.addr = addr ∧ d.new = value ∧ e.loaded ∧ !e.stored then { e with stored := true }
    else e.refuse
  | none => e.refuse

/-- Answers a call of the host, once. -/
def reply (e : Evidence) : HostReply × Evidence :=
  match e.host with
  | some r => if e.asked then ({}, e.refuse) else (r, { e with asked := true })
  | none => ({}, e.refuse)

/-- The bus of a row. -/
def bus : Bus Evidence where
  fetch := fetchWord
  load := loadWord
  store := storeWord
  call := fun e _ => e.reply

/-- Whether everything that a row holds was asked for. -/
def allUsed (e : Evidence) : Bool :=
  e.fetched = e.fetch.isSome && e.loaded = e.data.isSome && e.asked = e.host.isSome

end Evidence

/-- Why a row is no transition. -/
inductive TransitionError where
  | fetchUnauthenticated
  | dataUnauthenticated
  /-- Something was asked that the row does not answer. -/
  | outsideWitness
  | unusedWitness
  /-- The row changes a word that its instruction only loads. -/
  | loadChangesMemory
  | faults (reason : FaultReason)
  /-- The next row has another state. -/
  | notFollowed
  deriving DecidableEq

/-- The wording of an error. -/
def TransitionError.message : TransitionError → String
  | .fetchUnauthenticated => "instruction word not authenticated"
  | .dataUnauthenticated => "data word not authenticated"
  | .outsideWitness => "access outside the row witness"
  | .unusedWitness => "unused witness value"
  | .loadChangesMemory => "load witness changes memory"
  | .faults reason => "row faults: " ++ reason.message
  | .notFollowed => "next row does not follow"

/-- Whether a path shows that a memory has a word at an address. -/
def MerklePath.authenticates (path : MerklePath) (root : Digest) (depth : Nat)
    (addr value : UInt32) : Bool :=
  addr % 4 = 0 && path.verifyWord root depth (Memory.wordIndex addr) value

namespace Row

/-- Whether the instruction word of a row, if it has one, is in the memory of its state. -/
def fetchIsAuthentic (depth : Nat) (r : Row) : Bool :=
  r.fetch.all fun f => f.path.authenticates r.state.memoryRoot depth f.addr f.value

/-- Whether the data word of a row, if it has one, is in the memory of its state. -/
def dataIsAuthentic (depth : Nat) (r : Row) : Bool :=
  r.data.all fun d => d.path.authenticates r.state.memoryRoot depth d.addr d.old

/-- The root of memory after a row. Only a store changes it. -/
def rootAfter (r : Row) (stored : Bool) : Except TransitionError Digest :=
  match r.data with
  | none => .ok r.state.memoryRoot
  | some d =>
    if stored then .ok (d.path.rootForWord (Memory.wordIndex d.addr) d.new)
    else if d.new ≠ d.old then .error .loadChangesMemory
    else .ok r.state.memoryRoot

/-- The step of a row with nothing but the row behind the bus. -/
def step (params : Params) (r : Row) : StepResult Evidence :=
  r.state.machine.step Evidence.bus params
    ⟨r.fetch, r.data, r.host, false, false, false, false, false⟩

/-- What the instruction of a row gives, and the state after it. -/
def replay (params : Params) (r : Row) :
    Except TransitionError (Except FaultReason StepOutcome × SystemState) := do
  if !r.fetchIsAuthentic params.merkleDepth then throw .fetchUnauthenticated
  if !r.dataIsAuthentic params.merkleDepth then throw .dataUnauthenticated
  let s := r.step params
  if s.bus.invalid then throw .outsideWitness
  if !s.bus.allUsed then throw .unusedWitness
  let root ← r.rootAfter s.bus.stored
  return (s.result, .of s.machine root)

end Row

end ReplayVM
