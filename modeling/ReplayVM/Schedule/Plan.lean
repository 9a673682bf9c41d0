import ReplayVM.Receipt.Reduce

/-!
# Join plans

A plan says which receipts are joined with which. Its nodes are numbered: first the lifted segments
in order, then the joins, each behind its two inputs. While a session runs, the plan holds the
results that are there and not yet used, and counts for each join the inputs that are missing.

## Main definitions

* `PlanNode`, `JoinPlan`.
* `JoinPlan.make`: the plan for some segments.
* `JoinPlan.complete`, `JoinPlan.takeInputs`: results in and out of a plan.
-/

namespace ReplayVM

/-- What a node of a plan makes. -/
inductive PlanNode.Kind where
  /-- The receipt of a segment. -/
  | leaf (segment : Nat)
  /-- The receipt joined from those of two other nodes. -/
  | join (left right : Nat)
  deriving DecidableEq

/-- A node of a plan. -/
structure PlanNode (α : Type) where
  kind : PlanNode.Kind
  /-- The join that the node is an input of. -/
  parent : Option Nat := none
  /-- The number of inputs that are missing. -/
  pending : Nat := 0
  result : Option α := none

/-- A plan for a number of segments. -/
structure JoinPlan (α : Type) where
  nodes : Array (PlanNode α)
  root : Nat
  leaves : Nat

namespace JoinPlan

variable {α : Type}

/-! ### Making plans -/

/-- Appends a join of two nodes that are there, and gives its number. -/
def addJoin (nodes : Array (PlanNode α)) (left right : Nat) : Array (PlanNode α) × Nat :=
  let id := nodes.size
  let own := fun node : PlanNode α => { node with parent := some id }
  (((nodes.push { kind := .join left right, pending := 2 }).modify left own).modify right own, id)

/-- Joins each of some nodes to the join of those before. -/
def addFold (nodes : Array (PlanNode α)) (first : Nat) : List Nat → Array (PlanNode α) × Nat
  | [] => (nodes, first)
  | id :: ids =>
    let (nodes, joined) := addJoin nodes first id
    addFold nodes joined ids

/-- Joins neighbours; a node without a partner stays as it is. -/
def addRound (nodes : Array (PlanNode α)) : List Nat → Array (PlanNode α) × List Nat
  | left :: right :: ids =>
    let (nodes, joined) := addJoin nodes left right
    let (nodes, ids) := addRound nodes ids
    (nodes, joined :: ids)
  | ids => (nodes, ids)

/-- Joins neighbours for a number of rounds. -/
def addRounds : (rounds : Nat) → Array (PlanNode α) → List Nat → Array (PlanNode α) × Nat
  | 0, nodes, ids => (nodes, ids.headD 0)
  | rounds + 1, nodes, ids =>
    let (nodes, ids) := addRound nodes ids
    addRounds rounds nodes ids

/-- The nodes of some segments. -/
def leafNodes (leaves : Nat) : Array (PlanNode α) :=
  ((List.range leaves).map fun segment => { kind := .leaf segment }).toArray

/-- The plan for a number of segments. -/
def make (strategy : ReductionStrategy) (leaves : Nat) : JoinPlan α :=
  let nodes := leafNodes leaves
  let (nodes, root) :=
    match strategy with
    | .fold => addFold nodes 0 ((List.range leaves).drop 1)
    | .tree => addRounds (Pairing.rounds leaves) nodes (List.range leaves)
  ⟨nodes, root, leaves⟩

/-- The number of joins. -/
def joins (p : JoinPlan α) : Nat := p.nodes.size - p.leaves

/-! ### Results -/

/-- Puts the result of a node into a plan, and gives the join whose last missing input it was. -/
def complete (p : JoinPlan α) (id : Nat) (result : α) : JoinPlan α × Option Nat :=
  let stored := p.nodes.modify id fun node => { node with result := some result }
  match p.nodes[id]?.bind PlanNode.parent with
  | none => ({ p with nodes := stored }, none)
  | some parent =>
    let counted := stored.modify parent fun node => { node with pending := node.pending - 1 }
    let ready := counted[parent]?.any fun node => node.pending = 0
    ({ p with nodes := counted }, if ready then some parent else none)

/-- Takes the result of a node out of a plan. -/
def take (p : JoinPlan α) (id : Nat) : Option (α × JoinPlan α) := do
  let node ← p.nodes[id]?
  let result ← node.result
  return (result, { p with nodes := p.nodes.modify id fun node => { node with result := none } })

/-- Takes the inputs of a join out of a plan. -/
def takeInputs (p : JoinPlan α) (id : Nat) : Option ((α × α) × JoinPlan α) := do
  match (← p.nodes[id]?).kind with
  | .leaf _ => none
  | .join left right =>
    let (a, p) ← p.take left
    let (b, p) ← p.take right
    return ((a, b), p)

/-- The result of the whole plan. -/
def rootResult (p : JoinPlan α) : Option α := (p.take p.root).map Prod.fst

end JoinPlan

end ReplayVM
