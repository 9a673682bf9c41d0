/-!
# JSON values

Values in the JSON data format, as options are written down and as machine values are shown. A
number written as a plain integer is kept as that integer; any other number is kept as it is
written. Fields of an object stay in the order of the text, with repetitions.

## Main definitions

* `Json`, with `Json.str` and `Json.obj` for texts and objects of our own.
* `Json.field`, `Json.item`: access by name and by position.
-/

namespace ReplayVM

/-- A JSON value. A text that holds half of a surrogate pair has no characters to stand for it, and
is given as nothing. -/
inductive Json where
  | null
  | bool (value : Bool)
  | int (value : Int)
  /-- A number with a fraction or an exponent, or negative zero. -/
  | real (literal : String)
  | text (value : Option String)
  | list (items : List Json)
  | object (fields : List (Option String × Json))

namespace Json

instance : Inhabited Json := ⟨null⟩

/-- A text. -/
def str (s : String) : Json := .text (some s)

/-- A number. -/
def nat (n : Nat) : Json := .int n

/-- An object with the given fields. -/
def obj (fields : List (String × Json)) : Json :=
  .object (fields.map fun (name, value) => (some name, value))

/-- Whether a value is null. -/
def isNull : Json → Bool
  | .null => true
  | _ => false

/-- The value of a field, null when the value has no such field. -/
def field : Json → String → Json
  | .object fields, name => (fields.lookup (some name)).getD .null
  | _, _ => .null

/-- Whether a field is there and not null. -/
def has (j : Json) (name : String) : Bool := !(j.field name).isNull

/-- The item at a position, null when the value has none. -/
def item : Json → Nat → Json
  | .list items, i => items.getD i .null
  | _, _ => .null

/-- An object with further fields behind its own. -/
def extend : Json → List (String × Json) → Json
  | .object own, fields => .object (own ++ fields.map fun (name, value) => (some name, value))
  | j, _ => j

end Json

end ReplayVM
