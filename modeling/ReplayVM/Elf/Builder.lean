import ReplayVM.Elf.Header

/-!
# Building executable files

A layout lists the parts of a program with their places in memory. The file built from it consists
of a header, one program header for each part, and the data of the parts, each padded to a whole
number of words. There are no section headers.

## Main definitions

* `Elf.Part`: one part of a program.
* `Elf.Layout`, with `Elf.Layout.code`, `Elf.Layout.data` and `Elf.Layout.zeros` to add parts.
* `Elf.Layout.build`: the file.
-/

namespace ReplayVM.Elf

/-- A part of a program. -/
structure Part where
  kind : UInt32
  vaddr : UInt32
  data : Bytes
  /-- The number of bytes in memory; those past the data are zero. -/
  memSize : UInt32
  flags : UInt32

/-- The parts of a program and what its header says. -/
structure Layout where
  entry : Option UInt32 := none
  fileType : UInt16 := executableType
  machine : UInt16 := riscvMachine
  flags : UInt32 := 0
  /-- The parts in the order of the file. -/
  parts : List Part := []

namespace Layout

/-- Appends a part. -/
def add (l : Layout) (part : Part) : Layout := { l with parts := l.parts ++ [part] }

/-- Appends a part that may be read and executed; the first one sets a missing entry point. -/
def code (l : Layout) (vaddr : UInt32) (bytes : Bytes) : Layout :=
  { l with entry := some (l.entry.getD vaddr) }.add
    ⟨ProgramHeader.loadKind, vaddr, bytes, bytes.length.toUInt32, 5⟩

/-- Appends a part that may be read and written. -/
def data (l : Layout) (vaddr : UInt32) (bytes : Bytes) : Layout :=
  l.add ⟨ProgramHeader.loadKind, vaddr, bytes, bytes.length.toUInt32, 6⟩

/-- Appends a part of zeros that may be read and written. -/
def zeros (l : Layout) (vaddr size : UInt32) : Layout :=
  l.add ⟨ProgramHeader.loadKind, vaddr, [], size, 6⟩

/-- The data of a part and the zeros up to the next word boundary. -/
def padded (data : Bytes) : Bytes := data ++ List.replicate ((4 - data.length % 4) % 4) 0

/-- The program headers of parts whose data start at an offset of the file. -/
def headersFrom (offset : Nat) : List Part → List ProgramHeader
  | [] => []
  | part :: parts =>
    { kind := part.kind, offset := offset.toUInt32, vaddr := part.vaddr, paddr := part.vaddr,
      fileSize := part.data.length.toUInt32, memSize := part.memSize, flags := part.flags,
      align := 4 } :: headersFrom (offset + (padded part.data).length) parts

/-- The header of the file. -/
def header (l : Layout) : Header where
  fileType := l.fileType
  machine := l.machine
  entry := l.entry.getD 0
  programOffset := if l.parts.isEmpty then 0 else 52
  flags := l.flags
  programCount := l.parts.length.toUInt16

/-- Where the data of the first part start. -/
def dataOffset (l : Layout) : Nat := headerLength + l.parts.length * programHeaderLength

/-- The bytes of the file. -/
def build (l : Layout) : Bytes :=
  l.header.toBytes ++ (headersFrom l.dataOffset l.parts).flatMap ProgramHeader.toBytes ++
    l.parts.flatMap fun part => padded part.data

end Layout

end ReplayVM.Elf
