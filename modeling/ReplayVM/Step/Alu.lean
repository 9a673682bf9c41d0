import ReplayVM.Isa.Instruction

/-!
# Arithmetic

What the operations of the integer unit compute on two 32-bit values. Results wrap modulo `2 ^ 32`;
a shift uses the five low bits of its distance; division by zero has the results that the
instruction set prescribes.

## Main definitions

* `AluOp.eval`: the result of a register or immediate operation.
* `Condition.holds`: whether a branch is taken.
* `LoadKind.extract`, `StoreKind.merge`: the part of a word that a narrow access reads or replaces.
-/

namespace ReplayVM

/-- A truth value as a word. -/
def flagWord (b : Bool) : UInt32 := if b then 1 else 0

namespace AluOp

/-- The upper word of a 64-bit product. -/
def upperWord (product : Int64) : UInt32 := (product >>> 32).toUInt64.toUInt32

/-- The signed quotient, rounded towards zero; all ones on division by zero. -/
def divide (a b : UInt32) : UInt32 :=
  if b = 0 then 0xffffffff else (a.toInt32 / b.toInt32).toUInt32

/-- The signed remainder, with the sign of the dividend; the dividend on division by zero. -/
def remainder (a b : UInt32) : UInt32 :=
  if b = 0 then a else (a.toInt32 % b.toInt32).toUInt32

/-- The result of an operation. -/
def eval : AluOp → (a b : UInt32) → UInt32
  | .add, a, b => a + b
  | .sub, a, b => a - b
  | .sll, a, b => a <<< (b &&& 31)
  | .slt, a, b => flagWord (a.toInt32 < b.toInt32)
  | .sltu, a, b => flagWord (a < b)
  | .xor, a, b => a ^^^ b
  | .srl, a, b => a >>> (b &&& 31)
  | .sra, a, b => (a.toInt32 >>> (b &&& 31).toInt32).toUInt32
  | .or, a, b => a ||| b
  | .and, a, b => a &&& b
  | .mul, a, b => a * b
  | .mulh, a, b => upperWord (a.toInt32.toInt64 * b.toInt32.toInt64)
  | .mulhsu, a, b => upperWord (a.toInt32.toInt64 * b.toUInt64.toInt64)
  | .mulhu, a, b => ((a.toUInt64 * b.toUInt64) >>> 32).toUInt32
  | .div, a, b => divide a b
  | .divu, a, b => if b = 0 then 0xffffffff else a / b
  | .rem, a, b => remainder a b
  | .remu, a, b => if b = 0 then a else a % b

end AluOp

/-- Whether a condition holds of two register values. -/
def Condition.holds : Condition → (a b : UInt32) → Bool
  | .eq, a, b => a = b
  | .ne, a, b => a ≠ b
  | .lt, a, b => a.toInt32 < b.toInt32
  | .ge, a, b => a.toInt32 ≥ b.toInt32
  | .ltu, a, b => a < b
  | .geu, a, b => a ≥ b

/-- The bit at which the byte of an address starts in its word. -/
def bitOffset (addr : UInt32) : UInt32 := (addr &&& 3) * 8

/-- The value that a load from an address takes out of the word around it. -/
def LoadKind.extract (kind : LoadKind) (addr word : UInt32) : UInt32 :=
  let shifted := word >>> bitOffset addr
  match kind with
  | .byte => shifted.toUInt8.toInt8.toInt32.toUInt32
  | .half => shifted.toUInt16.toInt16.toInt32.toUInt32
  | .word => word
  | .byteUnsigned => shifted &&& 0xff
  | .halfUnsigned => shifted &&& 0xffff

/-- The word around an address after a store of the low bytes of `value`. -/
def StoreKind.merge (kind : StoreKind) (addr value old : UInt32) : UInt32 :=
  let replace (mask : UInt32) : UInt32 :=
    let placed := mask <<< bitOffset addr
    (old &&& ~~~placed) ||| ((value <<< bitOffset addr) &&& placed)
  match kind with
  | .byte => replace 0xff
  | .half => replace 0xffff
  | .word => value

end ReplayVM
