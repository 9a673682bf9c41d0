import ReplayVM.Codec.Format
import ReplayVM.Exit
import ReplayVM.Machine
import ReplayVM.Step.Bus

/-!
# Formats of machine values

The binary forms of digests, parameters, exits and machine states. Records are their fields in a
row; the alternatives of faults and exits are numbered in the order of their declaration.
-/

namespace ReplayVM

open Format

/-- Thirty-two bytes without a count. -/
def Digest.format : Format Digest := (vector uint8 32).iso Digest.mk Digest.bytes

/-- The five parameters. -/
def Params.format : Format Params :=
  (uint32.pair (uint32.pair (uint32.pair (uint32.pair uint32)))).iso
    (fun (version, bits, page, po2, recursion) => ⟨version, bits, page, po2, recursion⟩)
    (fun p => (p.vmVersion, p.memoryBits, p.pageSize, p.maxSegmentPo2, p.recursionVersion))

/-- The number of the fault, then its arguments. -/
def FaultReason.format : Format FaultReason where
  write
    | .illegalInstruction pc word => uint32.write 0 ++ uint32.write pc ++ uint32.write word
    | .instructionFault pc => uint32.write 1 ++ uint32.write pc
    | .memoryOutOfBounds addr => uint32.write 2 ++ uint32.write addr
    | .misalignedAccess addr => uint32.write 3 ++ uint32.write addr
    | .breakpoint pc => uint32.write 4 ++ uint32.write pc
    | .unknownSyscall id => uint32.write 5 ++ uint32.write id
    | .invalidSyscallArgs id => uint32.write 6 ++ uint32.write id
    | .outputLimitExceeded => uint32.write 7
    | .sessionLimitExceeded => uint32.write 8
  read := do
    match ← uint32.read with
    | 0 =>
      let pc ← uint32.read
      return .illegalInstruction pc (← uint32.read)
    | 1 => return .instructionFault (← uint32.read)
    | 2 => return .memoryOutOfBounds (← uint32.read)
    | 3 => return .misalignedAccess (← uint32.read)
    | 4 => return .breakpoint (← uint32.read)
    | 5 => return .unknownSyscall (← uint32.read)
    | 6 => return .invalidSyscallArgs (← uint32.read)
    | 7 => return .outputLimitExceeded
    | 8 => return .sessionLimitExceeded
    | tag => throw (.unknownTag tag.toNat)

/-- The number of the exit, then its argument. -/
def ExitCode.format : Format ExitCode where
  write
    | .halted code => uint32.write 0 ++ uint32.write code
    | .paused code => uint32.write 1 ++ uint32.write code
    | .systemSplit => uint32.write 2
    | .fault reason => uint32.write 3 ++ FaultReason.format.write reason
  read := do
    match ← uint32.read with
    | 0 => return .halted (← uint32.read)
    | 1 => return .paused (← uint32.read)
    | 2 => return .systemSplit
    | 3 => return .fault (← FaultReason.format.read)
    | tag => throw (.unknownTag tag.toNat)

/-- The two values of a reply. -/
def HostReply.format : Format HostReply :=
  (uint32.pair uint32).iso (fun (a0, a1) => ⟨a0, a1⟩) (fun r => (r.a0, r.a1))

/-- The program counter, then the registers. -/
def Cpu.format : Format Cpu :=
  (uint32.pair (vector uint32 32)).iso (fun (pc, regs) => ⟨pc, regs⟩) (fun c => (c.pc, c.regs))

/-- The length of the journal, then its running hash. -/
def Output.format : Format Output :=
  (uint32.pair Digest.format).iso (fun (len, digest) => ⟨len, digest⟩) (fun o => (o.len, o.digest))

/-- The fields of a state. -/
def SystemState.format : Format SystemState :=
  (uint32.pair ((vector uint32 32).pair (Digest.format.pair (uint32.pair Digest.format)))).iso
    (fun (pc, regs, root, len, digest) => ⟨pc, regs, root, len, digest⟩)
    (fun s => (s.pc, s.regs, s.memoryRoot, s.outputLen, s.outputDigest))

end ReplayVM
