import ReplayVM.Json.Form
import ReplayVM.Json.Path

/-!
# Edits of values

Small changes to values that are given by their JSON forms or by their bytes: single parts are set,
copied or disturbed, lists cut and extended. An edit is itself a JSON list, its name in front of its
arguments.

## Main definitions

* `Json.edit`: one edit of a JSON value.
* `Form.edit`: a value after some edits of its form.
* `Bytes.edit`: one edit of a byte string.
-/

namespace ReplayVM

/-! ### Values -/

namespace Json

open Form

/-- The exclusive or of a number, or of the first byte of a digest. -/
def disturb (n : Nat) (j : Json) : Option Json :=
  match Digest.form.read j, readInt j with
  | .ok d, _ => some (Digest.form.write ⟨d.bytes.set 0 (d.bytes[0] ^^^ n.toUInt8)⟩)
  | _, .ok m => some (size.write (m.toNat ^^^ n))
  | _, _ => none

/-- Changes the items of a list. -/
def mapItems (f : List Json → List Json) : Json → Option Json
  | .list js => some (.list (f js))
  | _ => none

/-- The path that a text names, its steps divided by slashes. -/
def pathForm : Form (List String) := Form.text.iso (·.splitOn "/") ("/".intercalate ·)

/-- Changes the part of a value to which the first argument of an edit points. -/
def editAt (e : Json) (j : Json) (f : Json → Option Json) : Except FormError Json := do
  match j.modify? (← pathForm.read (e.item 1)) f with
  | some j => return j
  | none => throw .malformed

/-- One edit of a value. -/
def edit (j e : Json) : Except FormError Json := do
  let number (i : Nat) : Except FormError Nat := size.read (e.item i)
  match ← Form.text.read (e.item 0) with
  | "set" => editAt e j fun _ => some (e.item 2)
  | "copy" =>
    let source := j.get? (← pathForm.read (e.item 2))
    editAt e j fun _ => source
  | "xor" =>
    let n ← number 2
    editAt e j (disturb n)
  | "push" => editAt e j (mapItems (· ++ [e.item 2]))
  | "pop" => editAt e j (mapItems List.dropLast)
  | "truncate" =>
    let n ← number 2
    editAt e j (mapItems (List.take n))
  | "remove" =>
    let i ← number 2
    editAt e j (mapItems (List.eraseIdx · i))
  | "swap" =>
    let i ← number 2
    let k ← number 3
    editAt e j (mapItems fun js => (js.set i (js.getD k .null)).set k (js.getD i .null))
  | "xor_from" =>
    let first ← number 2
    let sub ← pathForm.read (e.item 3)
    let n ← number 4
    editAt e j (mapItems (List.mapIdx fun i j =>
      if i < first then j else (j.modify? sub (disturb n)).getD j))
  | _ => throw .malformed

end Json

/-- A value after some edits of its form. -/
def Form.edit {α : Type} (f : Form α) (a : α) (edits : List Json) : Except FormError α := do
  f.read (← edits.foldlM Json.edit (f.write a))

/-! ### Bytes -/

/-- Where an offset points in a byte string; a negative one counts from the end. -/
def Bytes.position (bs : Bytes) (offset : Int) : Nat :=
  (if offset < 0 then bs.length + offset else offset).toNat

/-- One edit of a byte string. -/
def Bytes.edit (bs : Bytes) (e : Json) : Except FormError Bytes := do
  match ← Form.text.read (e.item 0) with
  | "xor" =>
    let b ← Form.byte.read (e.item 2)
    return bs.modify (bs.position (← Form.readInt (e.item 1))) (· ^^^ b)
  | "set" =>
    let start := bs.position (← Form.readInt (e.item 1))
    let new ← Form.bytes.read (e.item 2)
    return bs.take start ++ new ++ bs.drop (start + new.length)
  | "truncate" => return bs.take (bs.position (← Form.readInt (e.item 1)))
  | "append" => return bs ++ (← Form.bytes.read (e.item 1))
  | _ => throw .malformed

end ReplayVM
