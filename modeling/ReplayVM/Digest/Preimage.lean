import ReplayVM.Digest.Basic

/-!
# Tagged preimages

Every commitment is the hash of a tag, which says what is committed to, followed by the committed
fields in a fixed order. The byte string that is hashed is a definition of its own, so that two
commitments can be compared by what they were computed from.

## Main definitions

* `Field`: one field of a preimage, with its bytes.
* `Preimage`: a tag and its fields; `Preimage.bytes` is hashed into `Preimage.digest`.
-/

namespace ReplayVM

/-- One field of a preimage. -/
inductive Field where
  /-- A 32-bit number, little-endian. -/
  | word (value : UInt32)
  /-- A 64-bit number, little-endian. -/
  | long (value : UInt64)
  /-- The bytes of a digest. -/
  | digest (value : Digest)
  /-- Bytes as they are, without their number. -/
  | bytes (value : Bytes)

/-- The bytes of a field. -/
def Field.toBytes : Field → Bytes
  | .word value => Bytes.ofWord value
  | .long value => Bytes.le 8 value.toNat
  | .digest value => value.toBytes
  | .bytes value => value

/-- What is hashed for a commitment. -/
structure Preimage where
  tag : String
  fields : List Field

namespace Preimage

/-- The tag followed by the fields. -/
def bytes (p : Preimage) : Bytes := Bytes.ofString p.tag ++ p.fields.flatMap Field.toBytes

/-- The hash of a preimage. -/
def digest (p : Preimage) : Digest := Digest.hash p.bytes

end Preimage

end ReplayVM
