import ReplayVM.Codec.Error

/-!
# Binary formats

A format writes the values of a type as bytes and reads one value back from the front of a byte
string. Formats are put together from a few parts: fixed-width little-endian numbers, tags for
alternatives, counts in front of lists, and sequences without any framing for records.

## Main definitions

* `Format`, `Format.encode`, `Format.decode`.
* `Format.uint8`, `Format.uint32`, `Format.uint64`, `Format.bool`, `Format.bytes`, `Format.text`.
* `Format.option`, `Format.list`, `Format.vector`, `Format.pair`.
* `Format.iso`, `Format.refine`: a format of one type read as a format of another.
-/

namespace ReplayVM

/-- Reads a value from the front of the input and leaves the rest. -/
abbrev Reader := StateT Bytes (Except CodecError)

/-- A binary format of a type. -/
structure Format (α : Type) where
  write : α → Bytes
  read : Reader α

namespace Format

variable {α β : Type}

/-- The encoding of a value. -/
def encode (f : Format α) (a : α) : Bytes := f.write a

/-- The value that a whole byte string encodes. -/
def decode (f : Format α) (bytes : Bytes) : Except CodecError α :=
  match f.read.run bytes with
  | .error e => .error e
  | .ok (a, []) => .ok a
  | .ok (_, rest) => .error (.trailingBytes rest.length)

/-! ### Numbers and texts -/

/-- Cuts a number of bytes off the front. -/
def take (n : Nat) : Reader Bytes := fun bytes =>
  let front := bytes.take n
  if front.length = n then .ok (front, bytes.drop n) else .error .endOfInput

/-- Reads a little-endian number of the given width. -/
def readLe (width : Nat) : Reader Nat := Bytes.leValue <$> take width

/-- One byte. -/
def uint8 : Format UInt8 where
  write b := [b]
  read
    | [] => .error .endOfInput
    | b :: rest => .ok (b, rest)

/-- A number in four bytes. -/
def uint32 : Format UInt32 where
  write n := Bytes.ofWord n
  read := Nat.toUInt32 <$> readLe 4

/-- A number in eight bytes. -/
def uint64 : Format UInt64 where
  write n := Bytes.le 8 n.toNat
  read := Nat.toUInt64 <$> readLe 8

/-- A count in eight bytes. -/
def count : Format Nat where
  write n := Bytes.le 8 n
  read := readLe 8

/-- One byte, 0 or 1. -/
def bool : Format Bool where
  write b := [if b then 1 else 0]
  read := do
    match ← uint8.read with
    | 0 => return false
    | 1 => return true
    | tag => throw (.unknownTag tag.toNat)

/-- A count, then as many bytes. -/
def bytes : Format Bytes where
  write bs := count.write bs.length ++ bs
  read := do take (← count.read)

/-- The UTF-8 bytes of a text, behind their count. -/
def text : Format String where
  write s := bytes.write (Bytes.ofString s)
  read := do
    match String.fromUTF8? ⟨(← bytes.read).toArray⟩ with
    | some s => return s
    | none => throw .invalidText

/-! ### Compounds -/

/-- One format after the other. -/
def pair (f : Format α) (g : Format β) : Format (α × β) where
  write := fun (a, b) => f.write a ++ g.write b
  read := do
    let a ← f.read
    let b ← g.read
    return (a, b)

/-- A tag byte, 0 for nothing, 1 in front of a value. -/
def option (f : Format α) : Format (Option α) where
  write
    | none => [0]
    | some a => 1 :: f.write a
  read := do
    match ← uint8.read with
    | 0 => return none
    | 1 => return some (← f.read)
    | tag => throw (.unknownTag tag.toNat)

/-- Reads a number of values in a row, behind those read so far. -/
def readMany (f : Format α) : Nat → Array α → Reader (List α)
  | 0, done, bytes => .ok (done.toList, bytes)
  | n + 1, done, bytes =>
    match f.read.run bytes with
    | .error e => .error e
    | .ok (a, rest) => readMany f n (done.push a) rest

/-- A count, then as many values. -/
def list (f : Format α) : Format (List α) where
  write as := count.write as.length ++ as.flatMap f.write
  read := do readMany f (← count.read) #[]

/-- Reads a fixed number of values in a row. -/
def readVector (f : Format α) : (n : Nat) → Reader (Vector α n)
  | 0 => return #v[]
  | n + 1 => do
    let front ← readVector f n
    let a ← f.read
    return front.push a

/-- A fixed number of values, without a count. -/
def vector (f : Format α) (n : Nat) : Format (Vector α n) where
  write as := as.toList.flatMap f.write
  read := readVector f n

/-! ### Changes of type -/

/-- A format of `α` read as one of `β`. -/
def iso (f : Format α) (decode : α → β) (encode : β → α) : Format β where
  write b := f.write (encode b)
  read := decode <$> f.read

/-- A format of `α` read as one of `β`, where not every value of `α` stands for one of `β`. -/
def refine (f : Format α) (decode : α → Except CodecError β) (encode : β → α) : Format β where
  write b := f.write (encode b)
  read := do
    match decode (← f.read) with
    | .ok b => return b
    | .error e => throw e

end Format

end ReplayVM
