import ReplayVM.Digest.Blake3
import ReplayVM.Elf.Header
import ReplayVM.Program.Basic

/-!
# Loading programs

A file becomes a program when its header describes a 32-bit little-endian executable of the base
instruction set and its loadable parts fit the address space. The tables of the file are checked
first, then the header, then the parts in the order of their table, and last what holds of all parts
together.

## Main definitions

* `Elf.checkIdent`, `Elf.readProgramHeaders`: the form of a file.
* `Elf.checkTarget`: what its header says about the machine.
* `Elf.loadPart`, `Elf.loadParts`: the parts with their data.
* `Program.load`: the program of a file.
-/

namespace ReplayVM

namespace Elf

/-! ### Tables -/

/-- The bytes of a file in a range. -/
def readRange (file : Bytes) (start stop : Nat) : Except FormatError Bytes :=
  if start ≤ file.length ∧ stop ≤ file.length then .ok ((file.drop start).take (stop - start))
  else .error (.unreadable start stop)

/-- As many words as asked for, from a place in the file. -/
def readWords (file : Bytes) (start : Nat) : Nat → Except FormatError (List UInt32)
  | 0 => .ok []
  | n + 1 => do
    let word ← readRange file start (start + 4)
    let words ← readWords file (start + 4) n
    return Bytes.toWord word :: words

/-- A field of the first section header, whose ten fields must all be in the file. -/
def readSectionField (file : Bytes) (h : Header) (field : Nat) : Except FormatError Nat := do
  let words ← readWords file h.sectionOffset.toNat 10
  return (words.getD field 0).toNat

/-- The number of section headers; a count of 0 in the header stands for the size field of the
first section header. -/
def sectionCount (file : Bytes) (h : Header) : Except FormatError Nat :=
  if h.sectionCount = 0 then readSectionField file h 5 else .ok h.sectionCount.toNat

/-- The number of program headers; a count of all ones in the header stands for the info field of
the first section header. -/
def programCount (file : Bytes) (h : Header) : Except FormatError Nat :=
  if h.programCount = 0xffff then readSectionField file h 7 else .ok h.programCount.toNat

/-- The bytes of a table whose entries must have the expected size. -/
def readTable (file : Bytes) (start count expected : Nat) (found : UInt16) :
    Except FormatError Bytes :=
  if found.toNat ≠ expected then .error (.entrySize expected found.toNat)
  else readRange file start (start + expected * count)

/-- Checks that the section headers, if there are any, are in the file. -/
def checkSections (file : Bytes) (h : Header) : Except FormatError Unit :=
  if h.sectionOffset = 0 then .ok ()
  else do
    let count ← sectionCount file h
    let _ ← readTable file h.sectionOffset.toNat count sectionHeaderLength h.sectionEntrySize
    return ()

/-- The program headers, or nothing when the file has no table of them. -/
def readProgramHeaders (file : Bytes) (h : Header) :
    Except FormatError (Option (List ProgramHeader)) :=
  if h.programOffset = 0 then .ok none
  else do
    let count ← programCount file h
    let bytes ← readTable file h.programOffset.toNat count programHeaderLength h.programEntrySize
    return some (ProgramHeader.table count bytes)

/-! ### Header -/

/-- Checks the identification bytes, and that the file holds a whole header. -/
def checkIdent (file : Bytes) : Except ProgramError Unit :=
  if file.length < identLength ∨ file.take 4 ≠ magic then .error (.format .missingMagic)
  else if file.getD 4 0 = 2 then .error (.isa .wideClass)
  else if file.getD 4 0 ≠ 1 then .error (.format (.unknownClass (file.getD 4 0)))
  else if file.getD 5 0 ≠ 1 then .error (.format .notLittleEndian)
  else if file.length < headerLength then .error (.format .truncatedHeader)
  else if file.getD 6 0 ≠ 1 then .error (.format (.identVersion (file.getD 6 0)))
  else .ok ()

/-- Checks that a header describes an executable for the base instruction set. -/
def checkTarget (h : Header) : Except ProgramError Unit :=
  if h.machine ≠ riscvMachine then .error (.format (.foreignMachine h.machine))
  else if h.fileType ≠ executableType then .error (.format (.notExecutable h.fileType))
  else if h.flags &&& 0x1 ≠ 0 then .error (.isa .compressed)
  else if h.flags &&& 0x6 ≠ 0 then .error (.isa .floatingPoint)
  else if h.flags &&& 0x8 ≠ 0 then .error (.isa .reducedRegisters)
  else .ok ()

/-! ### Parts -/

/-- Checks the place of a part in memory. -/
def checkPlace (params : Params) (h : ProgramHeader) : Except ProgramError Unit :=
  if h.fileSize > h.memSize then
    .error (.format (.fileSizeAboveMemSize h.vaddr h.fileSize h.memSize))
  else if h.vaddr < minMemory then .error (.tooLarge (.guardPage h.vaddr))
  else if h.memEnd > params.maxMemory.toNat then
    .error (.tooLarge (.pastEnd h.vaddr h.memEnd params.maxMemory.toNat))
  else .ok ()

/-- The data of a part. -/
def partData (file : Bytes) (h : ProgramHeader) : Except ProgramError Bytes :=
  let start := h.offset.toNat
  let stop := start + h.fileSize.toNat
  match readRange file start stop with
  | .ok data => .ok data
  | .error _ => .error (.format (.dataUnreadable start stop))

/-- The data of a part that is loaded, and nothing for one that is passed over. -/
def loadPart (params : Params) (file : Bytes) (h : ProgramHeader) :
    Except ProgramError (Option Bytes) :=
  if h.kind = ProgramHeader.dynamicKind then .error (.isa .dynamicLinking)
  else if h.kind = ProgramHeader.interpreterKind then .error (.isa .interpreter)
  else if h.kind = ProgramHeader.threadLocalKind then .error (.isa .threadLocalStorage)
  else if h.kind ≠ ProgramHeader.loadKind ∨ h.memSize = 0 then .ok none
  else do
    checkPlace params h
    let data ← partData file h
    return some data

/-- The loaded parts with their data, in the order of the table. -/
def loadParts (params : Params) (file : Bytes) :
    List ProgramHeader → Except ProgramError (List (ProgramHeader × Bytes))
  | [] => .ok []
  | h :: headers => do
    let data ← loadPart params file h
    let parts ← loadParts params file headers
    match data with
    | some data => return (h, data) :: parts
    | none => return parts

/-- Whether the instruction at the entry point comes from the file part of executable code. -/
def isEntry (headers : List ProgramHeader) (entry : UInt32) : Bool :=
  entry % 4 = 0 && headers.any fun h =>
    h.isExecutable && h.vaddr ≤ entry && entry.toNat + 4 ≤ h.fileEnd

/-- The record of a loaded part. -/
def ProgramHeader.loaded (h : ProgramHeader) : LoadedPart :=
  ⟨h.vaddr, h.fileSize, h.memSize, h.flags⟩

end Elf

namespace Program

open Elf in
/-- The loaded parts of a file and its entry point. -/
def readParts (params : Params) (file : Bytes) :
    Except ProgramError (UInt32 × List (ProgramHeader × Bytes)) := do
  checkIdent file
  let header := Header.ofBytes file
  (checkSections file header).mapError .format
  let headers ← (readProgramHeaders file header).mapError .format
  checkTarget header
  let some headers := headers | throw (.format .noProgramHeaders)
  let parts ← loadParts params file headers
  return (header.entry, parts)

/-- The number of bytes that some parts take in memory. -/
def footprint (headers : List Elf.ProgramHeader) : Nat :=
  headers.foldl (fun n h => n + h.memSize.toNat) 0

/-- Checks what holds of all parts together. -/
def checkParts (params : Params) (entry : UInt32) (headers : List Elf.ProgramHeader) :
    Except ProgramError Unit :=
  if headers.isEmpty then .error (.format .noLoadablePart)
  else if footprint headers ≥ params.maxMemory.toNat then
    .error (.tooLarge (.footprint (footprint headers)))
  else if !Elf.isEntry headers entry then .error (.format (.entryOutsideCode entry))
  else .ok ()

/-- The program of a file, to be run under the given parameters. -/
def load (params : Params) (file : Bytes) : Except ProgramError Program := do
  params.validate.mapError .params
  let (entry, parts) ← readParts params file
  let headers := parts.map Prod.fst
  checkParts params entry headers
  let memory := Memory.ofRegions params (parts.map fun (h, data) => (h.vaddr, data))
  let info : ProgramInfo :=
    { fileHash := Hex.ofBytes (Blake3.hash file)
      parts := headers.map Elf.ProgramHeader.loaded
      footprint := (footprint headers).toUInt64 }
  return make memory entry params info

end Program

end ReplayVM
