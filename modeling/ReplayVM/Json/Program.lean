import ReplayVM.Codec.Memory
import ReplayVM.Json.Machine
import ReplayVM.Program.Basic

/-!
# JSON forms of memories and programs

A memory is shown as its snapshot and read like one, so a page that does not fit is refused. The
bytes of pages are hexadecimal digits or, where single bytes are to be addressed, lists of numbers;
the form of bytes is a parameter here.
-/

namespace ReplayVM

open Form

/-- The siblings of a path. -/
def MerklePath.form : Form MerklePath :=
  (Fields.one "siblings" (list Digest.form)).form MerklePath.mk MerklePath.siblings

/-- The layout and the pages. -/
def Snapshot.form (bytes : Form Bytes) : Form Snapshot :=
  ((Fields.one "page_size" word).and ((Fields.one "memory_bits" word).and
    (Fields.one "pages" (list (word.pair bytes))))).form
    (fun (pageSize, memoryBits, pages) => ⟨pageSize, memoryBits, pages⟩)
    (fun s => (s.pageSize, s.memoryBits, s.pages))

/-- A memory, as its snapshot. -/
def Memory.form (bytes : Form Bytes) : Form Memory :=
  (Snapshot.form bytes).refine Memory.ofSnapshot Memory.snapshot

/-- The four numbers of a part, by name. -/
def LoadedPart.form : Form LoadedPart :=
  ((Fields.one "vaddr" word).and ((Fields.one "file_size" word).and
    ((Fields.one "mem_size" word).and (Fields.one "flags" word)))).form
    (fun (vaddr, fileSize, memSize, flags) => ⟨vaddr, fileSize, memSize, flags⟩)
    (fun p => (p.vaddr, p.fileSize, p.memSize, p.flags))

/-- The hash of the file, the parts and their footprint. -/
def ProgramInfo.form : Form ProgramInfo :=
  ((Fields.one "elf_hash" text).and ((Fields.one "segments" (list LoadedPart.form)).and
    (Fields.one "footprint" long))).form
    (fun (fileHash, parts, footprint) => ⟨fileHash, parts, footprint⟩)
    (fun i => (i.fileHash, i.parts, i.footprint))

/-- A program with its memory. -/
def Program.form (bytes : Form Bytes) : Form Program :=
  ((Fields.one "memory" (Memory.form bytes)).and ((Fields.one "entry_pc" word).and
    ((Fields.one "params" Params.form).and ((Fields.one "entry_state" Digest.form).and
    ((Fields.one "config_digest" Digest.form).and (Fields.one "metadata" ProgramInfo.form)))))).form
    (fun (memory, entry, params, entryState, configDigest, info) =>
      ⟨memory, entry, params, entryState, configDigest, info⟩)
    (fun p => (p.memory, p.entry, p.params, p.entryState, p.configDigest, p.info))

end ReplayVM
