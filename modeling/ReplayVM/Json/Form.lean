import ReplayVM.Codec.Error
import ReplayVM.Digest.Basic
import ReplayVM.Json.Basic

/-!
# JSON forms

A form writes the values of a type as JSON and reads them back. Forms are put together like binary
formats: numbers, texts and lists at the bottom, records by the names of their fields. On reading, a
number may also stand in a text, and fields that are not asked for are passed over.

## Main definitions

* `Form`, `FormError`.
* `Form.word`, `Form.long`, `Form.size`, `Form.bool`, `Form.text`, `Form.bytes`, `Digest.form`.
* `Form.option`, `Form.list`, `Form.pair`, `Form.iso`.
* `Fields`, `Fields.one`, `Fields.and`, `Fields.form`: records.
-/

namespace ReplayVM

/-- Why a JSON value is not the form of a value. -/
inductive FormError where
  /-- The value has another shape. -/
  | malformed
  /-- The value describes a memory that is refused. -/
  | refused (cause : CodecError)

/-- The JSON form of a type. -/
structure Form (α : Type) where
  write : α → Json
  read : Json → Except FormError α

namespace Form

variable {α β : Type}

/-! ### Numbers and texts -/

/-- The least number that readers in double precision cannot tell from its neighbours. -/
def doubleLimit : Nat := 1 <<< 53

/-- A number; in digits as a text when it is too large for double precision. -/
def writeNat (n : Nat) : Json := if n < doubleLimit then .nat n else .str (toString n)

/-- Reads an integer, which may stand in a text. -/
def readInt : Json → Except FormError Int
  | .int n => .ok n
  | .text (some s) =>
    match s.toInt? with
    | some n => .ok n
    | none => .error .malformed
  | _ => .error .malformed

/-- Reads a natural number below a limit. -/
def readBelow (limit : Nat) (j : Json) : Except FormError Nat := do
  let n ← readInt j
  if 0 ≤ n ∧ n < limit then return n.toNat else throw .malformed

/-- A number of 64 bits as a natural number. -/
def size : Form Nat := ⟨writeNat, readBelow UInt64.size⟩

/-- A number of 8 bits. -/
def byte : Form UInt8 := ⟨fun n => .nat n.toNat, fun j => Nat.toUInt8 <$> readBelow UInt8.size j⟩

/-- A number of 16 bits. -/
def half : Form UInt16 := ⟨fun n => .nat n.toNat, fun j => Nat.toUInt16 <$> readBelow UInt16.size j⟩

/-- A number of 32 bits. -/
def word : Form UInt32 := ⟨fun n => .nat n.toNat, fun j => Nat.toUInt32 <$> readBelow UInt32.size j⟩

/-- A number of 64 bits. -/
def long : Form UInt64 := ⟨fun n => writeNat n.toNat, fun j => Nat.toUInt64 <$> size.read j⟩

/-- A signed number of 32 bits; others are taken modulo `2 ^ 32`. -/
def signed : Form Int32 := ⟨fun n => .int n.toInt, fun j => Int32.ofInt <$> readInt j⟩

/-- A truth value. -/
def bool : Form Bool where
  write := .bool
  read
    | .bool b => .ok b
    | _ => .error .malformed

/-- A text. -/
def text : Form String where
  write := .str
  read
    | .text (some s) => .ok s
    | _ => .error .malformed

/-- The bytes of some pairs of hexadecimal digits, behind those read so far. -/
def readDigits : Array UInt8 → Bytes → Except FormError Bytes
  | done, [] => .ok done.toList
  | _, [_] => .error .malformed
  | done, high :: low :: digits =>
    match Hex.nibble? high, Hex.nibble? low with
    | some h, some l => readDigits (done.push (h <<< 4 ||| l)) digits
    | _, _ => .error .malformed

/-- Reads items of a list one by one. -/
def readItems (f : Json → Except FormError α) : List Json → Except FormError (List α)
  | js => js.mapM f

/-- Reads bytes: hexadecimal digits, such digits repeated, or a list of numbers. -/
def readBytes (j : Json) : Except FormError Bytes :=
  match j with
  | .text (some s) => readDigits #[] (Bytes.ofString s)
  | .list js => readItems byte.read js
  | _ => do
    let unit ← readDigits #[] (Bytes.ofString (← text.read (j.field "hex")))
    let times ← size.read (j.field "repeat")
    return (List.replicate times unit).flatten

/-- Bytes, in hexadecimal digits. -/
def bytes : Form Bytes := ⟨fun bs => .str (Hex.ofBytes bs), readBytes⟩

/-- Bytes, as a list of numbers. -/
def byteList : Form Bytes := ⟨fun bs => .list (bs.map byte.write), readBytes⟩

/-! ### Compounds -/

/-- A value, or null for nothing. -/
def option (f : Form α) : Form (Option α) where
  write
    | none => .null
    | some a => f.write a
  read j := if j.isNull then .ok none else some <$> f.read j

/-- A list of values; null is read as the empty one. -/
def list (f : Form α) : Form (List α) where
  write as := .list (as.map f.write)
  read
    | .list js => readItems f.read js
    | .null => .ok []
    | _ => .error .malformed

/-- A fixed number of values. -/
def vector (f : Form α) (n : Nat) : Form (Vector α n) where
  write as := (list f).write as.toList
  read j := do
    let as := (← (list f).read j).toArray
    if h : as.size = n then return ⟨as, h⟩ else throw .malformed

/-- Two values in a list. -/
def pair (f : Form α) (g : Form β) : Form (α × β) where
  write := fun (a, b) => .list [f.write a, g.write b]
  read j := return (← f.read (j.item 0), ← g.read (j.item 1))

/-- A form of `α` read as one of `β`. -/
def iso (f : Form α) (decode : α → β) (encode : β → α) : Form β :=
  ⟨fun b => f.write (encode b), fun j => decode <$> f.read j⟩

/-- A form of `α` read as one of `β`, where not every value of `α` stands for one of `β`. -/
def refine (f : Form α) (decode : α → Except CodecError β) (encode : β → α) : Form β where
  write b := f.write (encode b)
  read j := do
    match decode (← f.read j) with
    | .ok b => return b
    | .error cause => throw (.refused cause)

/-- Reads a value, or takes the given one when there is none. -/
def readD (f : Form α) (default : α) (j : Json) : Except FormError α :=
  if j.isNull then .ok default else f.read j

/-- The names of some values, each of which is written by its name alone. -/
def names (f : α → String) (as : List α) : Form α where
  write a := .str (f a)
  read j := do
    let name ← text.read j
    match as.find? fun a => f a = name with
    | some a => return a
    | none => throw .malformed

end Form

/-! ### Records -/

/-- Some fields of an object. -/
structure Fields (α : Type) where
  write : α → List (String × Json)
  read : Json → Except FormError α

namespace Fields

variable {α β : Type}

/-- One field. -/
def one (name : String) (f : Form α) : Fields α :=
  ⟨fun a => [(name, f.write a)], fun j => f.read (j.field name)⟩

/-- One field, which has a default. -/
def oneD (name : String) (f : Form α) (default : α) : Fields α :=
  ⟨fun a => [(name, f.write a)], fun j => f.readD default (j.field name)⟩

/-- Some fields and further ones. -/
def and (f : Fields α) (g : Fields β) : Fields (α × β) where
  write := fun (a, b) => f.write a ++ g.write b
  read j := return (← f.read j, ← g.read j)

/-- Some fields of `α` read as a value of `β`. -/
def iso (f : Fields α) (decode : α → β) (encode : β → α) : Fields β :=
  ⟨fun b => f.write (encode b), fun j => decode <$> f.read j⟩

/-- The object with some fields, read as a value of another type. -/
def form (f : Fields α) (decode : α → β) (encode : β → α) : Form β where
  write b := .obj (f.write (encode b))
  read j := decode <$> f.read j

end Fields

/-- A digest, by its hexadecimal digits. -/
def Digest.form : Form Digest where
  write d := .str d.toHex
  read j := do
    match Digest.ofHex (← Form.text.read j) with
    | .ok d => return d
    | .error _ => throw .malformed

end ReplayVM
