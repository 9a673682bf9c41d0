import ReplayVM.Bytes

/-!
# Executable files

An executable file starts with a header, which says what kind of file it is and where its tables
stand. The program headers describe the parts of the file that are loaded into memory. Both are
records of little-endian fields at fixed offsets.

## Main definitions

* `Elf.Header`: the header of a file.
* `Elf.ProgramHeader`: one entry of the table of program headers.
* `Elf.ProgramHeader.table`: the entries of a whole table.
-/

namespace ReplayVM.Elf

/-- The 32-bit field at an offset. -/
def wordAt (bytes : Bytes) (offset : Nat) : UInt32 := Bytes.toWord ((bytes.drop offset).take 4)

/-- The 16-bit field at an offset. -/
def halfAt (bytes : Bytes) (offset : Nat) : UInt16 :=
  (Bytes.leValue ((bytes.drop offset).take 2)).toUInt16

/-- The bytes of a 16-bit field. -/
def ofHalf (n : UInt16) : Bytes := Bytes.le 2 n.toNat

/-- The first four bytes of every executable file. -/
def magic : Bytes := [0x7f, 0x45, 0x4c, 0x46]

/-- The number of identification bytes at the start of a header. -/
def identLength : Nat := 16

/-- The number of bytes of a header. -/
def headerLength : Nat := 52

/-- The number of bytes of a program header. -/
def programHeaderLength : Nat := 32

/-- The number of bytes of a section header. -/
def sectionHeaderLength : Nat := 40

/-- The file type of executables. -/
def executableType : UInt16 := 2

/-- The machine number of RISC-V. -/
def riscvMachine : UInt16 := 243

/-- The header of a file, behind its identification bytes. -/
structure Header where
  fileType : UInt16 := executableType
  machine : UInt16 := riscvMachine
  version : UInt32 := 1
  entry : UInt32
  /-- Where the program headers start; 0 when there are none. -/
  programOffset : UInt32
  /-- Where the section headers start; 0 when there are none. -/
  sectionOffset : UInt32 := 0
  flags : UInt32 := 0
  headerSize : UInt16 := 52
  programEntrySize : UInt16 := 32
  programCount : UInt16
  sectionEntrySize : UInt16 := 40
  sectionCount : UInt16 := 0
  nameSection : UInt16 := 0

namespace Header

/-- The header in the first 52 bytes of a file. -/
def ofBytes (bytes : Bytes) : Header where
  fileType := halfAt bytes 16
  machine := halfAt bytes 18
  version := wordAt bytes 20
  entry := wordAt bytes 24
  programOffset := wordAt bytes 28
  sectionOffset := wordAt bytes 32
  flags := wordAt bytes 36
  headerSize := halfAt bytes 40
  programEntrySize := halfAt bytes 42
  programCount := halfAt bytes 44
  sectionEntrySize := halfAt bytes 46
  sectionCount := halfAt bytes 48
  nameSection := halfAt bytes 50

/-- The identification of 32-bit little-endian files of the current version. -/
def ident : Bytes := magic ++ [1, 1, 1, 0] ++ List.replicate 8 0

/-- The bytes of a header. -/
def toBytes (h : Header) : Bytes :=
  ident ++ ofHalf h.fileType ++ ofHalf h.machine ++ Bytes.ofWord h.version ++
    Bytes.ofWord h.entry ++ Bytes.ofWord h.programOffset ++ Bytes.ofWord h.sectionOffset ++
    Bytes.ofWord h.flags ++ ofHalf h.headerSize ++ ofHalf h.programEntrySize ++
    ofHalf h.programCount ++ ofHalf h.sectionEntrySize ++ ofHalf h.sectionCount ++
    ofHalf h.nameSection

end Header

/-- One program header: a part of the file and its place in memory. -/
structure ProgramHeader where
  kind : UInt32
  /-- Where the data starts in the file. -/
  offset : UInt32
  vaddr : UInt32
  paddr : UInt32
  fileSize : UInt32
  memSize : UInt32
  flags : UInt32
  align : UInt32
  deriving DecidableEq

namespace ProgramHeader

/-- The kind of a part that is loaded. -/
def loadKind : UInt32 := 1

/-- The kind of the dynamic linking table. -/
def dynamicKind : UInt32 := 2

/-- The kind of the name of a program interpreter. -/
def interpreterKind : UInt32 := 3

/-- The kind of the template of thread-local storage. -/
def threadLocalKind : UInt32 := 7

/-- The program header in the first 32 of some bytes. -/
def ofBytes (bytes : Bytes) : ProgramHeader where
  kind := wordAt bytes 0
  offset := wordAt bytes 4
  vaddr := wordAt bytes 8
  paddr := wordAt bytes 12
  fileSize := wordAt bytes 16
  memSize := wordAt bytes 20
  flags := wordAt bytes 24
  align := wordAt bytes 28

/-- The bytes of a program header. -/
def toBytes (h : ProgramHeader) : Bytes :=
  [h.kind, h.offset, h.vaddr, h.paddr, h.fileSize, h.memSize, h.flags, h.align].flatMap
    Bytes.ofWord

/-- The entries of a table with the given number of entries. -/
def table : Nat → Bytes → List ProgramHeader
  | 0, _ => []
  | n + 1, bytes => ofBytes bytes :: table n (bytes.drop programHeaderLength)

/-- The address past the last byte in memory. -/
def memEnd (h : ProgramHeader) : Nat := h.vaddr.toNat + h.memSize.toNat

/-- The address past the last byte that comes from the file. -/
def fileEnd (h : ProgramHeader) : Nat := h.vaddr.toNat + h.fileSize.toNat

/-- Whether the part may be executed. -/
def isExecutable (h : ProgramHeader) : Bool := h.flags &&& 1 ≠ 0

end ProgramHeader

end ReplayVM.Elf
