import ReplayVM.Codec.Machine
import ReplayVM.Memory.Basic

/-!
# Formats of memory

A memory is encoded by its layout and its pages in ascending order; the tree is left out and built
again on reading. What is read must be a memory that some machine can have: a layout within the
ranges of the parameters, and full pages inside the address space. Of two pages with one number the
later counts.

## Main definitions

* `Snapshot`, `Memory.snapshot`, `Memory.ofSnapshot`.
* `MerklePath.format`, `Memory.format`.
-/

namespace ReplayVM

open Format

/-- The encoded part of a memory. -/
structure Snapshot where
  pageSize : UInt32
  memoryBits : UInt32
  /-- Page numbers and bytes. -/
  pages : List (UInt32 × Bytes)

namespace Memory

/-- The layout and the pages of a memory. -/
def snapshot (m : Memory) : Snapshot where
  pageSize := m.pageSize
  memoryBits := m.memoryBits
  pages := m.pages.toList.map fun (number, page) => (number, page.toList)

/-- Adds the pages of a snapshot, the first that does not fit the layout being refused. -/
def addPages (m : Memory) : List (UInt32 × Bytes) → Except CodecError Memory
  | [] => .ok m
  | (number, bytes) :: pages =>
    if bytes.length ≠ m.pageSize.toNat then
      .error (.pageLength number bytes.length m.pageSize)
    else if (number.toNat + 1) * m.pageSize.toNat > 1 <<< m.memoryBits.toNat then
      .error (.pageOutside number)
    else addPages { m with pages := m.pages.insert number bytes.toArray } pages

/-- The memory that a snapshot describes. -/
def ofSnapshot (s : Snapshot) : Except CodecError Memory :=
  let params : Params := { pageSize := s.pageSize, memoryBits := s.memoryBits }
  match params.validate with
  | .error cause => .error (.memoryLayout cause)
  | .ok () => (·.rebuild) <$> (empty params).addPages s.pages

end Memory

/-- The layout, then the pages. -/
def Snapshot.format : Format Snapshot :=
  (uint32.pair (uint32.pair (list (uint32.pair bytes)))).iso
    (fun (pageSize, memoryBits, pages) => ⟨pageSize, memoryBits, pages⟩)
    (fun s => (s.pageSize, s.memoryBits, s.pages))

/-- A memory, as its snapshot. -/
def Memory.format : Format Memory := Snapshot.format.refine Memory.ofSnapshot Memory.snapshot

/-- The siblings behind their count. -/
def MerklePath.format : Format MerklePath :=
  (list Digest.format).iso MerklePath.mk MerklePath.siblings

end ReplayVM
