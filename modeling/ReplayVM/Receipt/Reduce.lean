import ReplayVM.Pairing
import ReplayVM.Receipt.Compose

/-!
# Reducing lists of receipts

A list of receipts that chain is joined into one, either from the left or as a balanced tree. The
claim does not depend on the order of the joins, the depth does.

## Main definitions

* `ReductionStrategy`, `ReductionStrategy.parse`.
* `SuccinctReceipt.reduce`, `SegmentReceipt.joinAll`.
-/

namespace ReplayVM

/-- The order in which a list of receipts is joined. -/
inductive ReductionStrategy where
  /-- Neighbours are joined, round by round. -/
  | tree
  /-- Each receipt is joined to all before it. -/
  | fold
  deriving DecidableEq

/-- The text of no strategy, in lower case. -/
structure StrategyError where
  text : String
  deriving DecidableEq

/-- The wording of an error. -/
def StrategyError.message (e : StrategyError) : String :=
  "unknown reduction strategy '" ++ e.text ++ "', expected tree or fold"

namespace ReductionStrategy

/-- The name of a strategy. -/
def name : ReductionStrategy → String
  | .tree => "tree"
  | .fold => "fold"

/-- The strategies. -/
def all : List ReductionStrategy := [.tree, .fold]

/-- The strategy with a name, whatever the case of its letters. -/
def parse (text : String) : Except StrategyError ReductionStrategy :=
  match all.find? fun s => s.name = text.toLower with
  | some s => .ok s
  | none => .error ⟨text.toLower⟩

end ReductionStrategy

namespace SuccinctReceipt

/-- Joins each receipt of a list to those before it. -/
def reduceFold :
    SuccinctReceipt → List SuccinctReceipt → Except (Stop RecursionError) SuccinctReceipt
  | r, [] => .ok r
  | r, next :: rs => do
    let joined ← r.join next
    reduceFold joined rs

/-- Joins neighbours for a number of rounds. -/
def reduceRounds :
    (rounds : Nat) → List SuccinctReceipt → Except (Stop RecursionError) SuccinctReceipt
  | 0, r :: _ => .ok r
  | 0, [] => .error (.reported .emptyInput)
  | rounds + 1, rs => do
    let joined ← Pairing.pairUpM join rs
    reduceRounds rounds joined

/-- Joins a list of receipts into one. -/
def reduce (strategy : ReductionStrategy) :
    List SuccinctReceipt → Except (Stop RecursionError) SuccinctReceipt
  | [] => .error (.reported .emptyInput)
  | r :: rs =>
    match strategy with
    | .fold => reduceFold r rs
    | .tree => reduceRounds (Pairing.rounds (rs.length + 1)) (r :: rs)

end SuccinctReceipt

/-- Lifts a list of receipts of segments and joins them into one. -/
def SegmentReceipt.joinAll (strategy : ReductionStrategy) (rs : List SegmentReceipt) :
    Except (Stop RecursionError) SuccinctReceipt := do
  if rs.isEmpty then throw (.reported .emptyInput)
  let lifted ← (rs.mapM lift).mapError .reported
  SuccinctReceipt.reduce strategy lifted

end ReplayVM
