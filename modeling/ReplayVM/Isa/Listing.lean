import ReplayVM.Bytes
import ReplayVM.Isa.Encode

/-!
# Listings

A listing collects the words of a small program in order. Jumps and branches are written to a
target, which is a byte offset from the start of the listing; their own offset is the distance from
where they stand.

## Main definitions

* `Instruction.loadConstant`: the one or two instructions that put a constant into a register.
* `Listing`, `Listing.push`, `Listing.append`, `Listing.pushTo`, `Listing.patch`.
-/

namespace ReplayVM

/-- The instructions that put a constant into a register: one when the constant fits the twelve
bits of an immediate or has twelve zero bits at its low end, else an upper part adjusted for the
sign of the lower one, and the lower one added to it. -/
def Instruction.loadConstant (rd : Reg) (value : UInt32) : List Instruction :=
  let signed := value.toInt32
  if -2048 ≤ signed ∧ signed < 2048 then [.immediate .addi rd .zero signed]
  else
    let low : Int32 := ((value &&& 0xfff) <<< 20).toInt32 >>> 20
    let upper := .upper .lui rd ((value - low.toUInt32) &&& 0xfffff000).toInt32
    if low = 0 then [upper] else [upper, .immediate .addi rd rd low]

/-- The words of a program, in order. -/
structure Listing where
  words : Array UInt32 := #[]

namespace Listing

/-- The byte offset of the next word. -/
def here (l : Listing) : Int32 := Int32.ofNat (4 * l.words.size)

/-- Appends a word. -/
def push (l : Listing) (w : UInt32) : Listing := ⟨l.words.push w⟩

/-- Appends the words of some instructions. -/
def append (l : Listing) (is : List Instruction) : Listing :=
  ⟨l.words ++ (is.map Instruction.encode).toArray⟩

/-- Appends a jump or branch to a target. -/
def pushTo (l : Listing) (target : Int32) (jump : Int32 → Instruction) : Listing :=
  l.push (jump (target - l.here)).encode

/-- Puts a jump or branch to a target at the offset of an earlier word. -/
def patch (l : Listing) (offset target : Int32) (jump : Int32 → Instruction) : Listing :=
  ⟨l.words.setIfInBounds (offset / 4).toInt.toNat (jump (target - offset)).encode⟩

/-- The bytes of the words, each least significant byte first. -/
def toBytes (l : Listing) : Bytes := l.words.toList.flatMap Bytes.ofWord

end Listing

end ReplayVM
