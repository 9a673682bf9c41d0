import ReplayVM.Params

/-!
# Decoding errors

Why a byte string is not the encoding of a value. A memory has rules of its own beyond its binary
form, and their violations keep their own wording.
-/

namespace ReplayVM

/-- Why a byte string does not decode. -/
inductive CodecError where
  /-- The input ends inside the value. -/
  | endOfInput
  /-- A tag names no alternative. -/
  | unknownTag (tag : Nat)
  /-- A text is not UTF-8. -/
  | invalidText
  /-- A memory has a size that no machine has. -/
  | memoryLayout (cause : ParamsError)
  /-- A page of a memory has the wrong number of bytes. -/
  | pageLength (number : UInt32) (length : Nat) (expected : UInt32)
  /-- A page of a memory ends past the address space. -/
  | pageOutside (number : UInt32)
  /-- Input is left over after the value. -/
  | trailingBytes (count : Nat)
  deriving DecidableEq

/-- The wording of an error. -/
def CodecError.message : CodecError → String
  | .endOfInput | .unknownTag _ | .invalidText => "decode error"
  | .memoryLayout cause => "decode error: " ++ cause.message
  | .pageLength number length expected =>
    s!"decode error: page {number} has {length} bytes, expected {expected}"
  | .pageOutside number => s!"decode error: page {number} outside the address space"
  | .trailingBytes count => s!"{count} trailing bytes after value"

end ReplayVM
