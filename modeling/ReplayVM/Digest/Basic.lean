import ReplayVM.Digest.Sha256
import ReplayVM.Text.Quoted

/-!
# Digests

A digest is a string of 32 bytes, most often the SHA-256 hash of something. Digests are compared
byte by byte and written as 64 hexadecimal digits.

## Main definitions

* `Digest`, `Digest.zero`, `Digest.toBytes`.
* `Digest.hash`: the hash of a byte string; `Digest.hashPair`: the hash of two digests in a row.
* `Digest.toHex`, `Digest.ofHex`: the text of a digest, with the errors `HexError` on reading.
-/

namespace ReplayVM

/-- Thirty-two bytes. -/
structure Digest where
  bytes : Vector UInt8 32
  deriving DecidableEq

namespace Digest

/-- The digest of zero bytes only. -/
def zero : Digest := ⟨Vector.replicate 32 0⟩

instance : Inhabited Digest := ⟨zero⟩

/-- The bytes of a digest, in order. -/
def toBytes (d : Digest) : Bytes := d.bytes.toList

@[simp] theorem length_toBytes (d : Digest) : d.toBytes.length = 32 := by simp [toBytes]

/-- Equal bytes make equal digests. -/
theorem toBytes_inj {d e : Digest} : d.toBytes = e.toBytes ↔ d = e := by
  rcases d with ⟨d⟩
  rcases e with ⟨e⟩
  simp [toBytes, Vector.toList_inj]

/-- The SHA-256 hash of a byte string. -/
def hash (message : Bytes) : Digest := ⟨Sha256.hash message⟩

/-- The bytes hashed for two digests in a row. -/
def pairBytes (left right : Digest) : Bytes := left.toBytes ++ right.toBytes

/-- The hash of two digests in a row. -/
def hashPair (left right : Digest) : Digest := hash (pairBytes left right)

/-- Two digests in the order of their bytes. -/
def compare (d e : Digest) : Ordering := List.compareLex Ord.compare d.toBytes e.toBytes

/-! ### Text -/

/-- The 64 lower-case hexadecimal digits of a digest. -/
def toHex (d : Digest) : String := Hex.ofBytes d.toBytes

instance : ToString Digest := ⟨toHex⟩

/-- The text of a digest in diagnostics. -/
def diagnostic (d : Digest) : String := "Digest(" ++ d.toHex ++ ")"

end Digest

/-- Why a text is not the text of a digest. -/
inductive HexError where
  /-- The number of bytes is odd. -/
  | oddLength
  /-- The number of bytes is not 64. -/
  | wrongLength
  /-- The byte at the index is no hexadecimal digit. -/
  | invalidCharacter (code : UInt8) (index : Nat)
  deriving DecidableEq

/-- The wording of an error. -/
def HexError.message : HexError → String
  | .oddLength => "Odd number of digits"
  | .wrongLength => "Invalid string length"
  | .invalidCharacter code index =>
    "Invalid character " ++ Quoted.latin1 code ++ " at position " ++ toString index

namespace Digest

/-- The digit at an index of a text. -/
def nibbleAt (text : Bytes) (index : Nat) : Except HexError UInt8 :=
  let code := text.getD index 0
  match Hex.nibble? code with
  | some n => .ok n
  | none => .error (.invalidCharacter code index)

/-- The byte written by the digits `2 * i` and `2 * i + 1` of a text. -/
def byteAt (text : Bytes) (i : Nat) : Except HexError UInt8 := do
  let high ← nibbleAt text (2 * i)
  let low ← nibbleAt text (2 * i + 1)
  return high <<< 4 ||| low

/-- The digest with the given text, in digits of either case. -/
def ofHex (s : String) : Except HexError Digest := do
  let text := Bytes.ofString s
  if text.length % 2 ≠ 0 then throw .oddLength
  if text.length ≠ 64 then throw .wrongLength
  let bytes ← Vector.ofFnM fun i : Fin 32 => byteAt text i.val
  return ⟨bytes⟩

end Digest

end ReplayVM
