import ReplayVM.Digest.Preimage

/-!
# Machine parameters

The parameters fix the size of the address space, the granularity of paging and the longest
segment. A machine runs under parameters in the ranges of `Params.validate`; receipts name them by
`Params.configDigest`.

## Main definitions

* `Params`, `Params.validate`, `ParamsError`.
* `Params.maxMemory`, `Params.isValidAddr`, `Params.pageIndex`: the guest address space.
* `Params.merkleDepth`, `Params.merkleDepth?`: the depth of the memory tree, with one leaf for each
  word.
* `Params.maxSegmentCycles`: the longest segment, in instructions.
* `Params.configDigest`: the commitment to the parameters.
-/

namespace ReplayVM

/-- The lowest address the guest may use; the page below catches null pointers. -/
def minMemory : UInt32 := 0x1000

/-- The parameters of a machine. -/
structure Params where
  vmVersion : UInt32 := 1
  /-- The binary logarithm of the size of the address space in bytes. -/
  memoryBits : UInt32 := 24
  /-- The number of bytes of a page. -/
  pageSize : UInt32 := 1024
  /-- The binary logarithm of the longest segment. -/
  maxSegmentPo2 : UInt32 := 20
  recursionVersion : UInt32 := 1
  deriving DecidableEq

/-- Why parameters are refused, with the offending value. -/
inductive ParamsError where
  | memoryBits (value : UInt32)
  | pageSize (value : UInt32)
  | segmentPo2 (value : UInt32)
  deriving DecidableEq

/-- The wording of an error. -/
def ParamsError.message : ParamsError → String
  | .memoryBits value => s!"memory_bits {value} out of range [14, 30]"
  | .pageSize value =>
    s!"page_size {value} must be a power of two between 64 and the guard page size"
  | .segmentPo2 value => s!"max_segment_po2 {value} out of range [1, 24]"

namespace Params

/-- The page sizes a machine may have: the powers of two from 64 up to the guard page. -/
def pageSizes : List UInt32 := [64, 128, 256, 512, 1024, 2048, 4096]

/-- Refuses parameters outside their ranges, the size of memory first. -/
def validate (p : Params) : Except ParamsError Unit :=
  if ¬(14 ≤ p.memoryBits ∧ p.memoryBits ≤ 30) then .error (.memoryBits p.memoryBits)
  else if p.pageSize ∉ pageSizes then .error (.pageSize p.pageSize)
  else if ¬(1 ≤ p.maxSegmentPo2 ∧ p.maxSegmentPo2 ≤ 24) then .error (.segmentPo2 p.maxSegmentPo2)
  else .ok ()

/-- The first address past the guest address space. -/
def maxMemory (p : Params) : UInt32 := 1 <<< p.memoryBits

/-- The initial stack pointer; the stack grows down from the end of the address space. -/
def stackTop (p : Params) : UInt32 := p.maxMemory

/-- The depth of the memory tree. It wraps around where the address space has no room for a word,
which valid parameters do not allow. -/
def merkleDepth (p : Params) : Nat := (p.memoryBits - 2).toNat

/-- The depth of the memory tree of parameters that may not be valid, if it does not wrap around. -/
def merkleDepth? (p : Params) : Option Nat := if 2 ≤ p.memoryBits then some p.merkleDepth else none

/-- The number of instructions of the longest segment. -/
def maxSegmentCycles (p : Params) : Nat := 1 <<< p.maxSegmentPo2.toNat

/-- Whether an address lies in the guest address space. -/
def isValidAddr (p : Params) (addr : UInt32) : Bool :=
  minMemory ≤ addr && addr < p.maxMemory

/-- The number of the page that holds an address. -/
def pageIndex (p : Params) (addr : UInt32) : UInt32 := addr / p.pageSize

/-- What is hashed for the parameters: their fields in order. -/
def preimage (p : Params) : Preimage where
  tag := "zkc.config.v1"
  fields := [.word p.vmVersion, .word p.memoryBits, .word p.pageSize, .word p.maxSegmentPo2,
    .word p.recursionVersion]

/-- The commitment to the parameters. -/
def configDigest (p : Params) : Digest := p.preimage.digest

/-! ### Depths -/

variable {p : Params}

theorem merkleDepth_eq (h : 2 ≤ p.memoryBits) : p.merkleDepth = p.memoryBits.toNat - 2 :=
  UInt32.toNat_sub_of_le _ _ h

theorem two_le_memoryBits (h : p.validate = .ok ()) : 2 ≤ p.memoryBits := by
  unfold validate at h
  split at h
  · cases h
  · rename_i hbits
    exact UInt32.le_trans (by decide) (Decidable.not_not.mp hbits).1

/-- The depth of valid parameters does not wrap around. -/
theorem merkleDepth?_of_validate (h : p.validate = .ok ()) : p.merkleDepth? = some p.merkleDepth :=
  if_pos (two_le_memoryBits h)

end Params

end ReplayVM
