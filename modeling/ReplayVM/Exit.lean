import ReplayVM.Digest.Preimage
import ReplayVM.Text.Hex

/-!
# Faults and exits

A fault stops the machine before the instruction that causes it takes effect. An exit says why a
segment ends: the guest halted or paused with a code, the segment was split off, or the machine
faulted.

## Main definitions

* `FaultReason`, `ExitCode`, with their messages and the constructor form used in diagnostics.
* `ExitCode.isTerminal`, `ExitCode.isContinuable`: whether a further segment may follow.
* `ExitCode.fields`: the four words that stand for an exit in a commitment.
-/

namespace ReplayVM

/-- Why the machine cannot execute an instruction. -/
inductive FaultReason where
  | illegalInstruction (pc word : UInt32)
  /-- The program counter is misaligned or outside the address space. -/
  | instructionFault (pc : UInt32)
  | memoryOutOfBounds (addr : UInt32)
  | misalignedAccess (addr : UInt32)
  | breakpoint (pc : UInt32)
  | unknownSyscall (id : UInt32)
  | invalidSyscallArgs (id : UInt32)
  | outputLimitExceeded
  /-- The session has used up its cycles. -/
  | sessionLimitExceeded
  deriving DecidableEq

/-- Why a segment ends. -/
inductive ExitCode where
  | halted (code : UInt32)
  | paused (code : UInt32)
  /-- A segment boundary inside a run. -/
  | systemSplit
  | fault (reason : FaultReason)
  deriving DecidableEq

namespace FaultReason

/-- The wording of a fault. -/
def message : FaultReason → String
  | .illegalInstruction pc word =>
    "illegal instruction " ++ Hex.ofNatPadded 8 word.toNat ++ " at pc=" ++ Hex.ofNat pc.toNat
  | .instructionFault pc => "instruction fetch fault at pc=" ++ Hex.ofNat pc.toNat
  | .memoryOutOfBounds addr => "memory access out of bounds at " ++ Hex.ofNat addr.toNat
  | .misalignedAccess addr => "misaligned memory access at " ++ Hex.ofNat addr.toNat
  | .breakpoint pc => "breakpoint at pc=" ++ Hex.ofNat pc.toNat
  | .unknownSyscall id => s!"unknown syscall {id}"
  | .invalidSyscallArgs id => s!"invalid arguments to syscall {id}"
  | .outputLimitExceeded => "journal size limit exceeded"
  | .sessionLimitExceeded => "session cycle limit exceeded"

/-- The name of the constructor, then its fields by name. -/
def diagnostic : FaultReason → String
  | .illegalInstruction pc word => s!"IllegalInstruction \x7b pc: {pc}, word: {word} \x7d"
  | .instructionFault pc => s!"InstructionFault \x7b pc: {pc} \x7d"
  | .memoryOutOfBounds addr => s!"MemoryOutOfBounds \x7b addr: {addr} \x7d"
  | .misalignedAccess addr => s!"MisalignedAccess \x7b addr: {addr} \x7d"
  | .breakpoint pc => s!"Breakpoint \x7b pc: {pc} \x7d"
  | .unknownSyscall id => s!"UnknownSyscall \x7b id: {id} \x7d"
  | .invalidSyscallArgs id => s!"InvalidSyscallArgs \x7b id: {id} \x7d"
  | .outputLimitExceeded => "OutputLimitExceeded"
  | .sessionLimitExceeded => "SessionLimitExceeded"

/-- The number of the kind of a fault, then its arguments, zero where it has none. -/
def words : FaultReason → UInt32 × UInt32 × UInt32
  | .illegalInstruction pc word => (0, pc, word)
  | .instructionFault pc => (1, pc, 0)
  | .memoryOutOfBounds addr => (2, addr, 0)
  | .misalignedAccess addr => (3, addr, 0)
  | .breakpoint pc => (4, pc, 0)
  | .unknownSyscall id => (5, id, 0)
  | .invalidSyscallArgs id => (6, id, 0)
  | .outputLimitExceeded => (7, 0, 0)
  | .sessionLimitExceeded => (8, 0, 0)

end FaultReason

namespace ExitCode

/-- The wording of an exit. -/
def message : ExitCode → String
  | .halted code => s!"halted({code})"
  | .paused code => s!"paused({code})"
  | .systemSplit => "system split"
  | .fault reason => "fault: " ++ reason.message

/-- The name of the constructor, then its argument. -/
def diagnostic : ExitCode → String
  | .halted code => s!"Halted({code})"
  | .paused code => s!"Paused({code})"
  | .systemSplit => "SystemSplit"
  | .fault reason => "Fault(" ++ reason.diagnostic ++ ")"

/-- Whether execution cannot be continued. -/
def isTerminal : ExitCode → Bool
  | .halted _ | .fault _ => true
  | .paused _ | .systemSplit => false

/-- Whether a further segment may start from the end state. -/
def isContinuable : ExitCode → Bool
  | .systemSplit | .paused _ => true
  | .halted _ | .fault _ => false

/-- Whether the exit is the effect of an instruction of the segment. -/
def needsInstruction : ExitCode → Bool
  | .halted _ | .paused _ | .systemSplit => true
  | .fault _ => false

/-- The number of the kind of an exit and three words for its arguments. -/
def words : ExitCode → List UInt32
  | .halted code => [0, code, 0, 0]
  | .paused code => [1, code, 0, 0]
  | .systemSplit => [2, 0, 0, 0]
  | .fault reason => [3, reason.words.1, reason.words.2.1, reason.words.2.2]

/-- The fields that stand for an exit in a commitment. -/
def fields (e : ExitCode) : List Field := e.words.map .word

end ExitCode

end ReplayVM
