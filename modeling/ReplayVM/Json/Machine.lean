import ReplayVM.Exit
import ReplayVM.Json.Form
import ReplayVM.Machine
import ReplayVM.Params
import ReplayVM.Step.Bus

/-!
# JSON forms of machine values

The forms of parameters, exits and machine states. Parameters that are left out have their default
values; an exit or a fault is its name, in front of its arguments if it has any.
-/

namespace ReplayVM

open Form

/-- The five parameters, by name. -/
def Params.form : Form Params :=
  let base : Params := {}
  ((Fields.oneD "vm_version" word base.vmVersion).and
    ((Fields.oneD "memory_bits" word base.memoryBits).and
    ((Fields.oneD "page_size" word base.pageSize).and
    ((Fields.oneD "max_segment_po2" word base.maxSegmentPo2).and
    (Fields.oneD "recursion_version" word base.recursionVersion))))).form
    (fun (version, bits, page, po2, recursion) => ⟨version, bits, page, po2, recursion⟩)
    (fun p => (p.vmVersion, p.memoryBits, p.pageSize, p.maxSegmentPo2, p.recursionVersion))

/-- An alternative by its name, in front of its fields. -/
def writeCase (name : String) (fields : List (String × Json)) : Json := .obj [(name, .obj fields)]

/-- The name of a fault, with its arguments. -/
def FaultReason.form : Form FaultReason where
  write
    | .illegalInstruction pc w =>
      writeCase "IllegalInstruction" [("pc", word.write pc), ("word", word.write w)]
    | .instructionFault pc => writeCase "InstructionFault" [("pc", word.write pc)]
    | .memoryOutOfBounds addr => writeCase "MemoryOutOfBounds" [("addr", word.write addr)]
    | .misalignedAccess addr => writeCase "MisalignedAccess" [("addr", word.write addr)]
    | .breakpoint pc => writeCase "Breakpoint" [("pc", word.write pc)]
    | .unknownSyscall id => writeCase "UnknownSyscall" [("id", word.write id)]
    | .invalidSyscallArgs id => writeCase "InvalidSyscallArgs" [("id", word.write id)]
    | .outputLimitExceeded => .str "OutputLimitExceeded"
    | .sessionLimitExceeded => .str "SessionLimitExceeded"
  read
    | .text (some "OutputLimitExceeded") => .ok .outputLimitExceeded
    | .text (some "SessionLimitExceeded") => .ok .sessionLimitExceeded
    | .object [(some name, j)] => do
      let arg (name : String) : Except FormError UInt32 := word.read (j.field name)
      match name with
      | "IllegalInstruction" => return .illegalInstruction (← arg "pc") (← arg "word")
      | "InstructionFault" => return .instructionFault (← arg "pc")
      | "MemoryOutOfBounds" => return .memoryOutOfBounds (← arg "addr")
      | "MisalignedAccess" => return .misalignedAccess (← arg "addr")
      | "Breakpoint" => return .breakpoint (← arg "pc")
      | "UnknownSyscall" => return .unknownSyscall (← arg "id")
      | "InvalidSyscallArgs" => return .invalidSyscallArgs (← arg "id")
      | _ => throw .malformed
    | _ => .error .malformed

/-- The name of an exit, with its argument. -/
def ExitCode.form : Form ExitCode where
  write
    | .halted code => .obj [("Halted", word.write code)]
    | .paused code => .obj [("Paused", word.write code)]
    | .systemSplit => .str "SystemSplit"
    | .fault reason => .obj [("Fault", FaultReason.form.write reason)]
  read
    | .text (some "SystemSplit") => .ok .systemSplit
    | .object [(some "Halted", j)] => .halted <$> word.read j
    | .object [(some "Paused", j)] => .paused <$> word.read j
    | .object [(some "Fault", j)] => .fault <$> FaultReason.form.read j
    | _ => .error .malformed

/-- The two values of a reply, by name. -/
def HostReply.form : Form HostReply :=
  ((Fields.one "a0" word).and (Fields.one "a1" word)).form
    (fun (a0, a1) => ⟨a0, a1⟩) (fun r => (r.a0, r.a1))

/-- The two values of a reply, in a list. -/
def HostReply.pairForm : Form HostReply :=
  (word.pair word).iso (fun (a0, a1) => ⟨a0, a1⟩) (fun r => (r.a0, r.a1))

/-- The program counter and the registers. -/
def Cpu.form : Form Cpu :=
  ((Fields.one "pc" word).and (Fields.one "regs" (vector word 32))).form
    (fun (pc, regs) => ⟨pc, regs⟩) (fun c => (c.pc, c.regs))

/-- The length of the journal and its running hash. -/
def Output.form : Form Output :=
  ((Fields.one "len" word).and (Fields.one "digest" Digest.form)).form
    (fun (len, d) => ⟨len, d⟩) (fun o => (o.len, o.digest))

/-- The fields of a state. -/
def SystemState.named : Fields SystemState :=
  ((Fields.one "pc" word).and ((Fields.one "regs" (vector word 32)).and
    ((Fields.one "memory_root" Digest.form).and ((Fields.one "output_len" word).and
    (Fields.one "output_digest" Digest.form))))).iso
    (fun (pc, regs, root, len, d) => ⟨pc, regs, root, len, d⟩)
    (fun s => (s.pc, s.regs, s.memoryRoot, s.outputLen, s.outputDigest))

/-- The object of a state. -/
def SystemState.form : Form SystemState := named.form id id

end ReplayVM
