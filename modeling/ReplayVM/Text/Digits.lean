/-!
# Numbers in digits

A number below a limit is written in decimal digits, with any number of zeros and at most one plus
sign in front. Of several faults the one that is met first from the left counts.

## Main definitions

* `DigitsError`, `Digits.readBelow`.
-/

namespace ReplayVM

/-- Why a text is not a number below a limit. -/
inductive DigitsError where
  | empty
  | invalidDigit
  | tooLarge
  deriving DecidableEq

/-- The wording of an error. -/
def DigitsError.message : DigitsError → String
  | .empty => "cannot parse integer from empty string"
  | .invalidDigit => "invalid digit found in string"
  | .tooLarge => "number too large to fit in target type"

namespace Digits

/-- The value of a decimal digit. -/
def value? (c : Char) : Option Nat := if c.isDigit then some (c.toNat - '0'.toNat) else none

/-- Reads digits behind those of a number. -/
def extend (limit : Nat) : (value : Nat) → List Char → Except DigitsError Nat
  | value, [] => .ok value
  | value, c :: cs =>
    match value? c with
    | none => .error .invalidDigit
    | some d =>
      if 10 * value + d < limit then extend limit (10 * value + d) cs else .error .tooLarge

/-- The number below a limit that a text is. -/
def readBelow (limit : Nat) (text : String) : Except DigitsError Nat :=
  match text.toList with
  | [] => .error .empty
  | ['+'] => .error .invalidDigit
  | '+' :: cs => extend limit 0 cs
  | cs => extend limit 0 cs

end Digits

end ReplayVM
