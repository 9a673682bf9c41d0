import ReplayVM.Json.Basic

/-!
# Settings

Options are written down as an object that names some of them, or as a list that gives them by
position. What is left out keeps its default; a name that is no option is passed over, but a
repeated option, a position past the last option or a value of the wrong type is refused. Integers
must be written as plain integers in the range of their option.

## Main definitions

* `Setting`: an option by name, with what its value does to the options read so far.
* `readSettings`: the options of a JSON value.
-/

namespace ReplayVM

/-- An option of a record of options. -/
structure Setting (σ : Type) where
  name : String
  set : Json → σ → Option σ

namespace Setting

variable {σ α : Type}

/-- An option whose value is read by a function. -/
def of (name : String) (read : Json → Option α) (set : α → σ → σ) : Setting σ :=
  ⟨name, fun j s => (read j).map fun a => set a s⟩

end Setting

/-- The plain integer below a limit that a value is. -/
def Json.below? (limit : Nat) : Json → Option Nat
  | .int n => if 0 ≤ n ∧ n < limit then some n.toNat else none
  | _ => none

/-- The truth value that a value is. -/
def Json.bool? : Json → Option Bool
  | .bool b => some b
  | _ => none

/-- Nothing for null, else what a function reads. -/
def Json.nullable? {α : Type} (read : Json → Option α) (j : Json) : Option (Option α) :=
  if j.isNull then some none else (read j).map some

variable {σ : Type}

/-- Applies the values of an object, each option at most once. -/
def readNamed (settings : List (Setting σ)) :
    List (Option String × Json) → (seen : List String) → σ → Option σ
  | [], _, s => some s
  | (none, _) :: _, _, _ => none
  | (some name, j) :: fields, seen, s =>
    match settings.find? fun setting => setting.name = name with
    | none => readNamed settings fields seen s
    | some setting =>
      if name ∈ seen then none
      else
        match setting.set j s with
        | none => none
        | some s => readNamed settings fields (name :: seen) s

/-- Applies the values of a list, in the order of the options. -/
def readPositional : List (Setting σ) → List Json → σ → Option σ
  | _, [], s => some s
  | [], _ :: _, _ => none
  | setting :: settings, j :: js, s =>
    match setting.set j s with
    | none => none
    | some s => readPositional settings js s

/-- The options that a value gives over some defaults. -/
def readSettings (settings : List (Setting σ)) (defaults : σ) : Json → Option σ
  | .object fields => readNamed settings fields [] defaults
  | .list items => readPositional settings items defaults
  | _ => none

end ReplayVM
