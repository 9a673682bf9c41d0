/-!
# Byte strings

Everything the machine hashes, encodes or commits to is a list of bytes. Numbers enter such a list
least significant byte first, in a fixed number of bytes: `Bytes.le` writes one and `Bytes.leValue`
reads it back.

## Main definitions

* `Bytes`: byte strings.
* `Bytes.le`, `Bytes.leValue`: fixed-width little-endian numbers.
* `Bytes.ofWord`, `Bytes.toWord`: the four bytes of a machine word.
* `Bytes.ofString`: the UTF-8 bytes of a text.

## Main results

* `Bytes.leValue_le`: a number below `1 <<< (8 * width)` is read back.
* `Bytes.le_leValue`: a byte string is the little-endian form of its value.
* `toNat_add_of_lt`: sums of words that do not overflow.
-/

namespace ReplayVM

/-- A byte string. -/
abbrev Bytes := List UInt8

namespace Bytes

/-- The `width` low bytes of `n`, least significant first. -/
def le : (width n : Nat) → Bytes
  | 0, _ => []
  | width + 1, n => n.toUInt8 :: le width (n / 256)

/-- The number whose little-endian bytes are given. -/
def leValue : Bytes → Nat
  | [] => 0
  | b :: bs => b.toNat + 256 * leValue bs

/-- The four bytes of a word, least significant first. -/
def ofWord (w : UInt32) : Bytes := le 4 w.toNat

/-- The word whose little-endian bytes are given. -/
def toWord (bs : Bytes) : UInt32 := (leValue bs).toUInt32

/-- The UTF-8 bytes of a text. -/
def ofString (s : String) : Bytes := s.toByteArray.data.toList

/-! ### Widths and inverses -/

@[simp] theorem length_le (width n : Nat) : (le width n).length = width := by
  induction width generalizing n with
  | zero => rfl
  | succ width ih => simp [le, ih]

@[simp] theorem length_ofWord (w : UInt32) : (ofWord w).length = 4 := length_le 4 _

/-- One more byte holds 256 times as many numbers. -/
theorem shiftLeft_width (width : Nat) : 1 <<< (8 * (width + 1)) = 256 * 1 <<< (8 * width) := by
  simp only [Nat.one_shiftLeft, Nat.mul_add, Nat.pow_add]
  omega

theorem leValue_lt (bs : Bytes) : leValue bs < 1 <<< (8 * bs.length) := by
  induction bs with
  | nil => decide
  | cons b bs ih =>
    have hb : b.toNat < 256 := b.toNat_lt
    simp only [leValue, List.length_cons, shiftLeft_width]
    omega

/-- A number that fits the width is read back. -/
theorem leValue_le {width n : Nat} (h : n < 1 <<< (8 * width)) : leValue (le width n) = n := by
  induction width generalizing n with
  | zero =>
    have : n = 0 := by omega
    simp [le, leValue, this]
  | succ width ih =>
    have hq : n / 256 < 1 <<< (8 * width) := Nat.div_lt_of_lt_mul (by rwa [shiftLeft_width] at h)
    have hb : n.toUInt8.toNat = n % 256 := by simp
    simp only [le, leValue, ih hq, hb]
    omega

/-- A byte string is the little-endian form of its value. -/
theorem le_leValue (bs : Bytes) : le bs.length (leValue bs) = bs := by
  induction bs with
  | nil => rfl
  | cons b bs ih =>
    have hb : b.toNat < 256 := b.toNat_lt
    have hq : (b.toNat + 256 * leValue bs) / 256 = leValue bs := by omega
    have hr : (b.toNat + 256 * leValue bs).toUInt8 = b := by
      apply UInt8.toNat_inj.mp
      simp only [Nat.toUInt8, UInt8.toNat_ofNat']
      omega
    simp only [List.length_cons, leValue, le, hq, hr, ih]

@[simp] theorem toWord_ofWord (w : UInt32) : toWord (ofWord w) = w := by
  have h : leValue (ofWord w) = w.toNat := leValue_le (by simpa using w.toNat_lt)
  apply UInt32.toNat_inj.mp
  simp [toWord, h]

end Bytes

/-! ### Sums of words -/

theorem toNat_add_of_lt {a b : UInt32} (h : a.toNat + b.toNat < UInt32.size) :
    (a + b).toNat = a.toNat + b.toNat :=
  (UInt32.toNat_add a b).trans (Nat.mod_eq_of_lt h)

theorem toNat_add_one_of_lt {a : UInt32} (h : a.toNat + 1 < UInt32.size) :
    (a + 1).toNat = a.toNat + 1 :=
  toNat_add_of_lt h

end ReplayVM
