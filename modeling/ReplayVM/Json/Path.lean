import ReplayVM.Json.Basic

/-!
# Paths into JSON values

A path names a part of a value: each step is the name of a field or, in a list, a position in
decimal digits.

## Main definitions

* `Json.get?`: the part at a path.
* `Json.modify?`: the value with that part changed.
-/

namespace ReplayVM.Json

/-- The part of a value at one step. -/
def child? (step : String) : Json → Option Json
  | .object fields => fields.lookup (some step)
  | .list items => step.toNat?.bind fun i => items[i]?
  | _ => none

/-- The value with another part at one step. -/
def setChild (j : Json) (step : String) (part : Json) : Json :=
  match j with
  | .object fields => .object (fields.map fun (name, old) =>
      (name, if name = some step then part else old))
  | .list items => .list (items.set (step.toNat?.getD items.length) part)
  | j => j

/-- The part of a value at a path. -/
def get? : List String → Json → Option Json
  | [], j => some j
  | step :: path, j => (j.child? step).bind (get? path)

/-- The value with the part at a path changed. There is none if the path leads nowhere, or if the
change refuses the part. -/
def modify? : List String → (Json → Option Json) → Json → Option Json
  | [], f, j => f j
  | step :: path, f, j => do
    let part ← modify? path f (← j.child? step)
    return j.setChild step part

end ReplayVM.Json
