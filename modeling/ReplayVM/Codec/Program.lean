import ReplayVM.Codec.Memory
import ReplayVM.Program.Basic

/-!
# Formats of programs

A program is encoded with its memory in front. Reading checks the memory only: whether the digests
belong to the program is a question of `Program.checkIntegrity`.
-/

namespace ReplayVM

open Format

/-- The four numbers of a part. -/
def LoadedPart.format : Format LoadedPart :=
  (uint32.pair (uint32.pair (uint32.pair uint32))).iso
    (fun (vaddr, fileSize, memSize, flags) => ⟨vaddr, fileSize, memSize, flags⟩)
    (fun p => (p.vaddr, p.fileSize, p.memSize, p.flags))

/-- The hash of the file, the parts and their footprint. -/
def ProgramInfo.format : Format ProgramInfo :=
  (text.pair ((list LoadedPart.format).pair uint64)).iso
    (fun (fileHash, parts, footprint) => ⟨fileHash, parts, footprint⟩)
    (fun i => (i.fileHash, i.parts, i.footprint))

/-- Memory, entry point, parameters, digests and the record of the file. -/
def Program.format : Format Program :=
  (Memory.format.pair (uint32.pair (Params.format.pair (Digest.format.pair
    (Digest.format.pair ProgramInfo.format))))).iso
    (fun (memory, entry, params, entryState, configDigest, info) =>
      ⟨memory, entry, params, entryState, configDigest, info⟩)
    (fun p => (p.memory, p.entry, p.params, p.entryState, p.configDigest, p.info))

end ReplayVM
