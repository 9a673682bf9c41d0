import ReplayVM.Merkle.Path
import Std.Data.TreeMap

/-!
# Sparse Merkle trees

A memory is almost everywhere zero, so its tree stores only nodes whose digest differs from that of
the all-zero subtree of the same height. The tree is kept level by level, leaves first; a node that
is not stored has the digest of zeros.

## Main definitions

* `MerkleLevel`: one level, with its stored nodes.
* `MerkleTree`, `MerkleTree.empty`, `MerkleTree.ofWords`: the tree of a memory.
* `MerkleTree.update`: changes one word and the digests above it.
* `MerkleTree.root`, `MerkleTree.path`, `MerkleTree.storedNodes`.
-/

namespace ReplayVM

/-- One level of a tree. -/
structure MerkleLevel where
  /-- The digest of an all-zero subtree with its top at this level. -/
  zero : Digest
  /-- The stored nodes by index. -/
  nodes : Std.TreeMap Nat Digest := ∅

namespace MerkleLevel

/-- The digest of the node at an index. -/
def node (l : MerkleLevel) (index : Nat) : Digest := l.nodes.getD index l.zero

/-- Changes the digest of a node, which is stored unless it is the digest of zeros. -/
def set (l : MerkleLevel) (index : Nat) (d : Digest) : MerkleLevel :=
  { l with nodes := if d = l.zero then l.nodes.erase index else l.nodes.insert index d }

/-- The leaves of the given words; zero words are skipped. -/
def ofWords (words : List (Nat × UInt32)) : MerkleLevel where
  zero := Merkle.leafHash 0
  nodes := words.foldl
    (fun nodes (index, word) =>
      if word = 0 then nodes else nodes.insert index (Merkle.leafHash word)) ∅

/-- The level above, with a node for every parent of a stored node. -/
def above (l : MerkleLevel) : MerkleLevel where
  zero := Digest.hashPair l.zero l.zero
  nodes := l.nodes.foldl
    (fun nodes index _ =>
      let parent := index / 2
      if nodes.contains parent then nodes
      else nodes.insert parent (Digest.hashPair (l.node (2 * parent)) (l.node (2 * parent + 1)))) ∅

/-- A level and the `depth` levels above it. -/
def tower : Nat → MerkleLevel → List MerkleLevel
  | 0, l => [l]
  | depth + 1, l => l :: tower depth l.above

end MerkleLevel

/-- A sparse tree: its levels from the leaves to the root. -/
structure MerkleTree where
  levels : List MerkleLevel

namespace MerkleTree

/-- The tree of the given depth over zero words only. -/
def empty (depth : Nat) : MerkleTree :=
  ⟨(Merkle.zeroHashes depth).map fun zero => { zero }⟩

/-- The tree of the given depth over the given words, zero elsewhere. -/
def ofWords (depth : Nat) (words : List (Nat × UInt32)) : MerkleTree :=
  ⟨MerkleLevel.tower depth (MerkleLevel.ofWords words)⟩

/-- The number of levels above the leaves. -/
def depth (t : MerkleTree) : Nat := t.levels.length - 1

/-- The digest of the top node of some levels. -/
def rootOf : List MerkleLevel → Digest
  | [] => .zero
  | [l] => l.node 0
  | _ :: levels => rootOf levels

/-- The root of a tree. -/
def root (t : MerkleTree) : Digest := rootOf t.levels

/-- Changes the digest of the node at `index` of the lowest of some levels, and of every node above
it. -/
def updateFrom : List MerkleLevel → (index : Nat) → (node : Digest) → List MerkleLevel
  | [], _, _ => []
  | l :: levels, index, node =>
    let parent := Merkle.parentHash index node (l.node (Merkle.sibling index))
    l.set index node :: updateFrom levels (index / 2) parent

/-- Changes the word at `index`. -/
def update (t : MerkleTree) (index : Nat) (word : UInt32) : MerkleTree :=
  ⟨updateFrom t.levels index (Merkle.leafHash word)⟩

/-- The siblings of the nodes above `index`, below the top of some levels. -/
def siblingsFrom : List MerkleLevel → (index : Nat) → List Digest
  | l :: above :: levels, index =>
    l.node (Merkle.sibling index) :: siblingsFrom (above :: levels) (index / 2)
  | _, _ => []

/-- The path of the word at `index`. -/
def path (t : MerkleTree) (index : Nat) : MerklePath := ⟨siblingsFrom t.levels index⟩

/-- The number of stored nodes. -/
def storedNodes (t : MerkleTree) : Nat := t.levels.foldl (fun n l => n + l.nodes.size) 0

end MerkleTree

end ReplayVM
