import ReplayVM.Params
import ReplayVM.Text.Hex

/-!
# Program errors

Why a file is no program for the machine, or a program not what it claims to be.

## Main definitions

* `FormatError`, `IsaError`, `SizeError`: the causes, by the kind of error they belong to.
* `ProgramError`, with its wording.
-/

namespace ReplayVM

/-- What is wrong with the form of a file or of a program. -/
inductive FormatError where
  | missingMagic
  | unknownClass (value : UInt8)
  | notLittleEndian
  | truncatedHeader
  /-- The version in the identification bytes is not 1. -/
  | identVersion (value : UInt8)
  /-- The file ends before the byte range does. -/
  | unreadable (start stop : Nat)
  /-- The entries of a table have the wrong size. -/
  | entrySize (expected found : Nat)
  | foreignMachine (value : UInt16)
  | notExecutable (value : UInt16)
  | noProgramHeaders
  | fileSizeAboveMemSize (vaddr fileSize memSize : UInt32)
  /-- The data of a part end past the file. -/
  | dataUnreadable (start stop : Nat)
  | noLoadablePart
  | entryOutsideCode (entry : UInt32)
  | configMismatch
  | memoryLayoutMismatch
  | entryStateMismatch
  deriving DecidableEq

/-- What a program needs that the instruction set does not have. -/
inductive IsaError where
  | wideClass
  | compressed
  | floatingPoint
  | reducedRegisters
  | dynamicLinking
  | interpreter
  | threadLocalStorage
  deriving DecidableEq

/-- How a program exceeds the address space. -/
inductive SizeError where
  | guardPage (vaddr : UInt32)
  | pastEnd (vaddr : UInt32) (stop limit : Nat)
  | footprint (bytes : Nat)
  deriving DecidableEq

/-- Why something is no program. -/
inductive ProgramError where
  | format (cause : FormatError)
  | isa (cause : IsaError)
  | tooLarge (cause : SizeError)
  | params (cause : ParamsError)
  deriving DecidableEq

/-- A byte range that could not be read. -/
def unreadableText (start stop : Nat) : String :=
  "Could not read bytes in range [" ++ Hex.ofNatUpper start ++ ", " ++ Hex.ofNatUpper stop ++ ")"

/-- The wording of a cause. -/
def FormatError.message : FormatError → String
  | .missingMagic => "missing ELF magic"
  | .unknownClass value => s!"unknown ELF class {value}"
  | .notLittleEndian => "ELF data is not little-endian"
  | .truncatedHeader => "truncated ELF header"
  | .identVersion value => s!"Unsupported ELF Version field found: {value} expected: 1"
  | .unreadable start stop => unreadableText start stop
  | .entrySize expected found =>
    "Invalid entsize. Expected: " ++ Hex.ofNatUpper expected ++ ", Found: " ++ Hex.ofNatUpper found
  | .foreignMachine value => s!"machine {value} is not RISC-V"
  | .notExecutable value => s!"ELF type {value} is not an executable"
  | .noProgramHeaders => "no program headers"
  | .fileSizeAboveMemSize vaddr fileSize memSize =>
    "segment at " ++ Hex.ofNat vaddr.toNat ++
      s!" has file size {fileSize} above memory size {memSize}"
  | .dataUnreadable start stop => "segment data outside file: " ++ unreadableText start stop
  | .noLoadablePart => "no loadable segment"
  | .entryOutsideCode entry => "entry point " ++ Hex.ofNat entry.toNat ++ " is outside loaded code"
  | .configMismatch => "config digest does not match parameters"
  | .memoryLayoutMismatch => "memory layout does not match parameters"
  | .entryStateMismatch => "entry state does not match memory"

/-- The wording of a cause. -/
def IsaError.message : IsaError → String
  | .wideClass => "64-bit ELF class"
  | .compressed => "compressed instructions"
  | .floatingPoint => "floating-point ABI"
  | .reducedRegisters => "RV32E register file"
  | .dynamicLinking => "dynamic linking"
  | .interpreter => "program interpreter"
  | .threadLocalStorage => "thread-local storage"

/-- The wording of a cause. -/
def SizeError.message : SizeError → String
  | .guardPage vaddr => "segment at " ++ Hex.ofNat vaddr.toNat ++ " overlaps the null guard page"
  | .pastEnd vaddr stop limit =>
    "segment [" ++ Hex.ofNat vaddr.toNat ++ ", " ++ Hex.ofNat stop ++ ") reaches past " ++
      Hex.ofNat limit
  | .footprint bytes => s!"footprint of {bytes} bytes"

/-- The wording of an error. -/
def ProgramError.message : ProgramError → String
  | .format cause => "invalid ELF file: " ++ cause.message
  | .isa cause => "unsupported instruction set: " ++ cause.message
  | .tooLarge cause => "program does not fit the guest address space: " ++ cause.message
  | .params cause => "invalid parameters: " ++ cause.message

end ReplayVM
