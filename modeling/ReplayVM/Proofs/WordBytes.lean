import Mathlib.Algebra.Ring.Nat
import Mathlib.Tactic.Common
import ReplayVM.Bytes
import ReplayVM.Isa.Decode
import ReplayVM.Step.Alu

/-!
# The bytes of a word

A narrow store moves its value to the place of its address in a word and replaces the bits under a
mask; a narrow load shifts the word back, cuts it off and extends it through casts of several
widths. Bit by bit, the store replaces some bytes of the word and keeps the others, and the load
takes the number, signed or not, whose bytes lie there.

## Main definitions

* `wordByte`: a byte of a word, by its place.
* `LoadKind.value`: the value that a load makes of the bytes that it reads.

## Main results

* `Bytes.ofWord_eq_map`, `Bytes.leValue_wordBytes`: the bytes of a word, and the number of some.
* `StoreKind.wordByte_merge`: the bytes of a word after a store.
* `LoadKind.value_wordBytes`: a load gives the value of the bytes that it reads.
-/

namespace ReplayVM

/-- A byte of a word, by its place. -/
def wordByte (w : UInt32) (k : Nat) : UInt8 := (w.toNat >>> (8 * k)).toUInt8

/-! ### Bits -/

theorem testBit_wordByte (w : UInt32) (k : Nat) {i : Nat} (hi : i < 8) :
    (wordByte w k).toNat.testBit i = w.toNat.testBit (8 * k + i) := by
  have hbyte : (wordByte w k).toNat = w.toNat >>> (8 * k) % 2 ^ 8 := UInt8.toNat_ofNat'
  rw [hbyte, Nat.testBit_mod_two_pow, Nat.testBit_shiftRight, decide_eq_true hi, Bool.true_and]

/-- Bytes with the same bits are equal. -/
theorem byte_eq_of_testBit_eq {b c : UInt8} (h : ∀ i < 8, b.toNat.testBit i = c.toNat.testBit i) :
    b = c := by
  refine UInt8.toNat_inj.mp (Nat.eq_of_testBit_eq fun i => ?_)
  rcases Nat.lt_or_ge i 8 with hi | hi
  · exact h i hi
  · have hle : 2 ^ 8 ≤ 2 ^ i := Nat.pow_le_pow_right (by decide) hi
    rw [Nat.testBit_lt_two_pow (Nat.lt_of_lt_of_le b.toNat_lt hle),
      Nat.testBit_lt_two_pow (Nat.lt_of_lt_of_le c.toNat_lt hle)]

theorem toNat_bitOffset (addr : UInt32) : (bitOffset addr).toNat = 8 * (addr.toNat % 4) := by
  have hmod : (addr &&& 3).toNat = addr.toNat % 4 := by
    rw [UInt32.toNat_and]
    exact Nat.and_two_pow_sub_one_eq_mod _ 2
  have hfactor : (8 : UInt32).toNat = 8 := rfl
  rw [bitOffset, UInt32.toNat_mul, hmod, hfactor]
  omega

theorem toNat_shiftRight_bitOffset (w addr : UInt32) :
    (w >>> bitOffset addr).toNat = w.toNat >>> (8 * (addr.toNat % 4)) := by
  rw [UInt32.toNat_shiftRight, toNat_bitOffset, Nat.mod_eq_of_lt (by omega)]

/-- The bits of a mask of whole bytes at the place of an address. -/
theorem testBit_placed {width : Nat} (mask : UInt32) (hmask : mask.toNat = 2 ^ (8 * width) - 1)
    (addr : UInt32) {j : Nat} (hj : j < 32) :
    (mask <<< bitOffset addr).toNat.testBit j =
      decide (8 * (addr.toNat % 4) ≤ j ∧ j < 8 * (addr.toNat % 4 + width)) := by
  rw [UInt32.toNat_shiftLeft, toNat_bitOffset, Nat.mod_eq_of_lt (b := 32) (by omega),
    Nat.testBit_mod_two_pow, Nat.testBit_shiftLeft, hmask, Nat.testBit_two_pow_sub_one]
  simp only [← Bool.decide_and, decide_eq_decide]
  omega

/-- The bits of a value at the place of an address. -/
theorem testBit_shiftLeft_bitOffset (w addr : UInt32) {j : Nat} (hj : j < 32)
    (hge : 8 * (addr.toNat % 4) ≤ j) :
    (w <<< bitOffset addr).toNat.testBit j = w.toNat.testBit (j - 8 * (addr.toNat % 4)) := by
  rw [UInt32.toNat_shiftLeft, toNat_bitOffset, Nat.mod_eq_of_lt (b := 32) (by omega),
    Nat.testBit_mod_two_pow, Nat.testBit_shiftLeft, decide_eq_true hj, decide_eq_true hge,
    Bool.true_and, Bool.true_and]

/-- Replacing the bits under a mask. -/
theorem testBit_replace {old v placed : UInt32} {j : Nat} (hj : j < 32) :
    ((old &&& ~~~placed) ||| (v &&& placed)).toNat.testBit j =
      if placed.toNat.testBit j then v.toNat.testBit j else old.toNat.testBit j := by
  change (((old &&& ~~~placed) ||| (v &&& placed)).toBitVec).getLsbD j =
      if placed.toBitVec.getLsbD j then v.toBitVec.getLsbD j else old.toBitVec.getLsbD j
  simp only [UInt32.toBitVec_or, UInt32.toBitVec_and, UInt32.toBitVec_not, BitVec.getLsbD_or,
    BitVec.getLsbD_and, BitVec.getLsbD_not, decide_eq_true hj, Bool.true_and]
  cases placed.toBitVec.getLsbD j <;> simp

/-! ### Stores -/

namespace StoreKind

/-- A store under a mask replaces the bits of the bytes that it addresses. -/
theorem testBit_masked {width : Nat} (mask : UInt32) (hmask : mask.toNat = 2 ^ (8 * width) - 1)
    (addr value old : UInt32) {j : Nat} (hj : j < 32) :
    ((old &&& ~~~(mask <<< bitOffset addr)) |||
        ((value <<< bitOffset addr) &&& (mask <<< bitOffset addr))).toNat.testBit j =
      if 8 * (addr.toNat % 4) ≤ j ∧ j < 8 * (addr.toNat % 4 + width) then
        value.toNat.testBit (j - 8 * (addr.toNat % 4))
      else old.toNat.testBit j := by
  rw [testBit_replace hj, testBit_placed mask hmask addr hj]
  simp only [decide_eq_true_eq]
  split
  · rename_i hplaced
    exact testBit_shiftLeft_bitOffset value addr hj hplaced.1
  · rfl

/-- A store replaces the bits of the bytes that it addresses. -/
theorem testBit_merge {kind : StoreKind} {addr : UInt32}
    (halign : addr.toNat % kind.width.toNat = 0) (value old : UInt32) {j : Nat} (hj : j < 32) :
    (kind.merge addr value old).toNat.testBit j =
      if 8 * (addr.toNat % 4) ≤ j ∧ j < 8 * (addr.toNat % 4 + kind.width.toNat) then
        value.toNat.testBit (j - 8 * (addr.toNat % 4))
      else old.toNat.testBit j := by
  cases kind with
  | byte => exact testBit_masked 0xff rfl addr value old hj
  | half => exact testBit_masked 0xffff rfl addr value old hj
  | word =>
    have hplace : addr.toNat % 4 = 0 := halign
    have hwidth : StoreKind.word.width.toNat = 4 := rfl
    rw [if_pos (by omega), hplace]
    rfl

/-- A store replaces the bytes that it addresses, and keeps the others of their word. -/
theorem wordByte_merge {kind : StoreKind} {addr : UInt32}
    (halign : addr.toNat % kind.width.toNat = 0) (value old : UInt32) {k : Nat} (hk : k < 4) :
    wordByte (kind.merge addr value old) k =
      if addr.toNat % 4 ≤ k ∧ k < addr.toNat % 4 + kind.width.toNat then
        wordByte value (k - addr.toNat % 4)
      else wordByte old k := by
  refine byte_eq_of_testBit_eq fun i hi => ?_
  rw [testBit_wordByte _ _ hi, testBit_merge halign value old (by omega)]
  by_cases hplace : addr.toNat % 4 ≤ k ∧ k < addr.toNat % 4 + kind.width.toNat
  · rw [if_pos (by omega), if_pos hplace, testBit_wordByte _ _ hi]
    congr 1
    omega
  · rw [if_neg (by omega), if_neg hplace, testBit_wordByte _ _ hi]

end StoreKind

/-! ### Byte strings -/

namespace Bytes

theorem ofWord_eq_map (w : UInt32) : ofWord w = (List.range 4).map (wordByte w) := by
  simp [ofWord, le, List.range_succ, wordByte, Nat.shiftRight_eq_div_pow, Nat.div_div_eq_div_mul]

/-- The number whose bytes are those of a word from one place on. -/
theorem leValue_wordBytes (w : UInt32) (count k : Nat) :
    leValue ((List.range count).map fun i => wordByte w (k + i)) =
      w.toNat >>> (8 * k) % 2 ^ (8 * count) := by
  induction count generalizing k with
  | zero => simp [leValue, Nat.mod_one]
  | succ count ih =>
    have htail := ih (k + 1)
    have hbyte : (wordByte w k).toNat = w.toNat >>> (8 * k) % 256 := UInt8.toNat_ofNat'
    have hshift : w.toNat >>> (8 * (k + 1)) = w.toNat >>> (8 * k) / 256 := by
      rw [Nat.mul_add, Nat.shiftRight_add, Nat.shiftRight_eq_div_pow _ (8 * 1)]
    have hsize : 2 ^ (8 * (count + 1)) = 256 * 2 ^ (8 * count) := by
      rw [Nat.mul_add, Nat.pow_add, Nat.mul_comm]
    rw [hshift] at htail
    rw [List.range_succ_eq_map, List.map_cons, List.map_map, leValue, hsize, Nat.mod_mul, ← htail,
      Nat.add_zero, hbyte]
    congr 3
    refine List.map_congr_left fun i _ => ?_
    rw [Function.comp_apply, Nat.succ_eq_add_one, Nat.add_right_comm, Nat.add_assoc]

end Bytes

/-! ### Loads -/

/-- The signed reading of a number is that of two's complement. -/
theorem toInt_signExtend {v size : Nat} (hsize : 0 < size) (hle : size ≤ 31) (hv : v < 2 ^ size) :
    (signExtend v size).toInt = (BitVec.ofNat size v).toInt := by
  have hpow : 2 ^ size ≤ 2 ^ 31 := Nat.pow_le_pow_right (by decide) hle
  have hone : (1 <<< size : Nat) = 2 ^ size := Nat.one_shiftLeft size
  have hlast : size - 1 < size := by omega
  rw [BitVec.toInt_eq_msb_cond, BitVec.msb_eq_getLsbD_last, BitVec.getLsbD_ofNat,
    BitVec.toNat_ofNat, Nat.mod_eq_of_lt hv, signExtend, decide_eq_true hlast, Bool.true_and]
  split
  · rw [hone]
    exact Int32.toInt_ofInt_of_le (by omega) (by omega)
  · exact Int32.toInt_ofNat_of_lt (by omega)

theorem toInt32_toInt8 (w : UInt32) :
    w.toUInt8.toInt8.toInt32 = signExtend (w.toNat % 2 ^ 8) 8 := by
  refine Int32.toInt_inj.mp ?_
  rw [Int8.toInt_toInt32, toInt_signExtend (by decide) (by decide) (Nat.mod_lt _ (by decide))]
  change w.toUInt8.toBitVec.toInt = _
  congr 1
  apply BitVec.eq_of_toNat_eq
  simp

theorem toInt32_toInt16 (w : UInt32) :
    w.toUInt16.toInt16.toInt32 = signExtend (w.toNat % 2 ^ 16) 16 := by
  refine Int32.toInt_inj.mp ?_
  rw [Int16.toInt_toInt32, toInt_signExtend (by decide) (by decide) (Nat.mod_lt _ (by decide))]
  change w.toUInt16.toBitVec.toInt = _
  congr 1
  apply BitVec.eq_of_toNat_eq
  simp

/-- A mask of low bits leaves a remainder. -/
theorem toUInt32_mod (w mask : UInt32) (size : Nat) (hmask : mask.toNat = 2 ^ size - 1) :
    (w.toNat % 2 ^ size).toUInt32 = w &&& mask := by
  have hlt : w.toNat % 2 ^ size < 2 ^ 32 := Nat.lt_of_le_of_lt (Nat.mod_le _ _) w.toNat_lt
  refine UInt32.toNat_inj.mp ?_
  rw [UInt32.toNat_and, hmask, Nat.and_two_pow_sub_one_eq_mod]
  exact Nat.mod_eq_of_lt hlt

namespace LoadKind

/-- The value that a load makes of the bytes that it reads, the least significant first. -/
def value (kind : LoadKind) (bytes : Bytes) : UInt32 :=
  match kind with
  | .byte | .half => (signExtend (Bytes.leValue bytes) (8 * bytes.length)).toUInt32
  | .word | .byteUnsigned | .halfUnsigned => Bytes.toWord bytes

/-- A load takes the value of the bytes that it addresses out of their word. -/
theorem value_wordBytes {kind : LoadKind} {addr : UInt32}
    (halign : addr.toNat % kind.width.toNat = 0) (word : UInt32) :
    kind.value ((List.range kind.width.toNat).map fun i => wordByte word (addr.toNat % 4 + i)) =
      kind.extract addr word := by
  have hvalue := Bytes.leValue_wordBytes word kind.width.toNat (addr.toNat % 4)
  rw [← toNat_shiftRight_bitOffset] at hvalue
  cases kind with
  | byte =>
    rw [value, hvalue, List.length_map, List.length_range, extract, toInt32_toInt8]
    rfl
  | half =>
    rw [value, hvalue, List.length_map, List.length_range, extract, toInt32_toInt16]
    rfl
  | word =>
    have hplace : addr.toNat % 4 = 0 := halign
    have hword : word.toNat % 2 ^ 32 = word.toNat := Nat.mod_eq_of_lt word.toNat_lt
    rw [value, Bytes.toWord, hvalue, toNat_shiftRight_bitOffset, hplace]
    exact (congrArg Nat.toUInt32 hword).trans UInt32.ofNat_toNat
  | byteUnsigned =>
    rw [value, Bytes.toWord, hvalue]
    exact toUInt32_mod _ 0xff 8 rfl
  | halfUnsigned =>
    rw [value, Bytes.toWord, hvalue]
    exact toUInt32_mod _ 0xffff 16 rfl

end LoadKind

end ReplayVM
