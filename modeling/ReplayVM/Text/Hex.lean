import ReplayVM.Bytes

/-!
# Hexadecimal text

Addresses and instruction words appear in messages as `0x` followed by hexadecimal digits, digests
and other byte strings as two digits for each byte. Digits are lower case unless a name says
otherwise; both cases are read.

## Main definitions

* `Hex.ofNat`, `Hex.ofNatUpper`, `Hex.ofNatPadded`: a number after `0x`.
* `Hex.ofBytes`: two digits for each byte.
* `Hex.nibble?`: the value of one digit.
-/

namespace ReplayVM.Hex

/-- A number after `0x`, in the fewest digits. -/
def ofNat (n : Nat) : String := "0x" ++ String.ofList (Nat.toDigits 16 n)

/-- A number after `0x`, in the fewest digits, upper case. -/
def ofNatUpper (n : Nat) : String :=
  "0x" ++ String.ofList ((Nat.toDigits 16 n).map Char.toUpper)

/-- A number after `0x`, in at least `width` digits. -/
def ofNatPadded (width n : Nat) : String :=
  let digits := Nat.toDigits 16 n
  "0x" ++ String.ofList (List.replicate (width - digits.length) '0' ++ digits)

/-- The two digits of a byte, high digit first. -/
def byteDigits (b : UInt8) : List Char :=
  [Nat.digitChar (b.toNat / 16), Nat.digitChar (b.toNat % 16)]

/-- Two digits for each byte. -/
def ofBytes (bs : Bytes) : String := String.ofList (bs.flatMap byteDigits)

/-- The value of the digit with the given ASCII code, in either case. -/
def nibble? (c : UInt8) : Option UInt8 :=
  if 48 ≤ c && c ≤ 57 then some (c - 48)
  else if 97 ≤ c && c ≤ 102 then some (c - 87)
  else if 65 ≤ c && c ≤ 70 then some (c - 55)
  else none

end ReplayVM.Hex
