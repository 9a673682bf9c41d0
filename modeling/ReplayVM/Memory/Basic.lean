import ReplayVM.Merkle.Tree
import ReplayVM.Params

/-!
# Guest memory

Memory is a sparse set of pages: a page that was never written reads as zeros. Beside the pages
stands the Merkle tree over the words of the whole address space, which every store keeps up to
date, so that the root always commits to the current contents. Loads and stores take word-aligned
addresses; range checks belong to the instructions.

## Main definitions

* `Memory`, `Memory.empty`, `Memory.ofRegions`.
* `Memory.loadWord`, `Memory.storeWord`.
* `Memory.root`, `Memory.path`: the commitment, and the path of a word.
* `Memory.residentBytes`: the space a memory takes, for estimates.
-/

namespace ReplayVM

/-- The bytes of one page. -/
abbrev Page := Array UInt8

namespace Page

/-- A page of zeros. -/
def zeros (size : Nat) : Page := Array.replicate size 0

/-- The word at a byte offset. -/
def word (page : Page) (offset : Nat) : UInt32 :=
  Bytes.toWord [page.getD offset 0, page.getD (offset + 1) 0, page.getD (offset + 2) 0,
    page.getD (offset + 3) 0]

/-- Overwrites bytes from an offset on. -/
def write (page : Page) (offset : Nat) : Bytes → Page
  | [] => page
  | b :: bytes => write (page.setIfInBounds offset b) (offset + 1) bytes

/-- The words of a page, in order. -/
def words (page : Page) : List UInt32 :=
  (List.range (page.size / 4)).map fun i => page.word (4 * i)

end Page

/-- The memory of a guest. -/
structure Memory where
  pageSize : UInt32
  memoryBits : UInt32
  /-- The pages that were written, by page number. -/
  pages : Std.TreeMap UInt32 Page
  /-- The tree over all words of the address space. -/
  tree : MerkleTree

namespace Memory

/-- The index of the word at an address among the leaves of the tree. -/
def wordIndex (addr : UInt32) : Nat := addr.toNat / 4

/-- The depth of the tree over an address space of `2 ^ memoryBits` bytes. -/
def treeDepth (memoryBits : UInt32) : Nat := (memoryBits - 2).toNat

theorem treeDepth_eq {memoryBits : UInt32} (h : 2 ≤ memoryBits) :
    treeDepth memoryBits = memoryBits.toNat - 2 :=
  UInt32.toNat_sub_of_le _ _ h

/-- The memory of zeros. -/
def empty (params : Params) : Memory where
  pageSize := params.pageSize
  memoryBits := params.memoryBits
  pages := ∅
  tree := MerkleTree.empty (treeDepth params.memoryBits)

/-! ### Words -/

/-- The word at an aligned address. -/
def loadWord (m : Memory) (addr : UInt32) : UInt32 :=
  match m.pages[addr / m.pageSize]? with
  | some page => page.word (addr % m.pageSize).toNat
  | none => 0

/-- Overwrites bytes that lie in one page, and leaves the tree as it is. -/
def writePage (m : Memory) (addr : UInt32) (bytes : Bytes) : Memory :=
  { m with
    pages := m.pages.alter (addr / m.pageSize) fun page =>
      some ((page.getD (Page.zeros m.pageSize.toNat)).write (addr % m.pageSize).toNat bytes) }

/-- Overwrites the word at an aligned address. -/
def storeWord (m : Memory) (addr value : UInt32) : Memory :=
  let written := m.writePage addr (Bytes.ofWord value)
  { written with tree := m.tree.update (wordIndex addr) value }

/-! ### Bulk contents -/

/-- The words of all pages, by word index. -/
def words (m : Memory) : List (Nat × UInt32) :=
  m.pages.toList.flatMap fun (number, page) =>
    page.words.zipIdx.map fun (word, i) => (number.toNat * (m.pageSize.toNat / 4) + i, word)

/-- Builds the tree from the pages. -/
def rebuild (m : Memory) : Memory :=
  { m with tree := MerkleTree.ofWords (treeDepth m.memoryBits) m.words }

/-- Overwrites bytes one by one, from an address on. -/
def writeBytes (m : Memory) (addr : UInt32) : Bytes → Memory
  | [] => m
  | b :: bytes => writeBytes (m.writePage addr [b]) (addr + 1) bytes

/-- The memory that holds the given bytes at the given addresses, the later regions above the
earlier ones, and zeros elsewhere. -/
def ofRegions (params : Params) (regions : List (UInt32 × Bytes)) : Memory :=
  (regions.foldl (fun m (addr, bytes) => m.writeBytes addr bytes) (empty params)).rebuild

/-! ### Commitment -/

/-- The commitment to the contents. -/
def root (m : Memory) : Digest := m.tree.root

/-- The path of the word at an address. -/
def path (m : Memory) (addr : UInt32) : MerklePath := m.tree.path (wordIndex addr)

/-- The bytes that pages and stored tree nodes take, at 40 bytes a node. -/
def residentBytes (m : Memory) : Nat := m.pages.size * m.pageSize.toNat + m.tree.storedNodes * 40

end Memory

end ReplayVM
