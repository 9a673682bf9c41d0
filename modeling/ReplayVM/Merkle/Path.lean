import ReplayVM.Digest.Basic

/-!
# Merkle paths

The words of memory are the leaves of a binary hash tree: a leaf is the hash of the four bytes of
its word, an inner node the hash of its two children. A path lists the siblings met on the way from
a leaf to the root, so that the root can be recomputed from the leaf's word.

## Main definitions

* `Merkle.leafHash`, `Merkle.zeroHashes`: the digests of a leaf and of the all-zero subtrees.
* `Merkle.sibling`, `Merkle.parentHash`: one step towards the root.
* `MerklePath`, `MerklePath.rootForWord`, `MerklePath.verifyWord`.
-/

namespace ReplayVM

namespace Merkle

/-- The digest of a leaf. -/
def leafHash (word : UInt32) : Digest := Digest.hash (Bytes.ofWord word)

/-- The digests of the `n + 1` lowest all-zero subtrees above one with digest `zero`. -/
def zerosFrom : Nat → Digest → List Digest
  | 0, zero => [zero]
  | n + 1, zero => zero :: zerosFrom n (Digest.hashPair zero zero)

/-- The digests of the all-zero subtrees of heights `0` to `depth`. -/
def zeroHashes (depth : Nat) : List Digest := zerosFrom depth (leafHash 0)

/-- The index of the other child of the same parent. -/
def sibling (index : Nat) : Nat := if index % 2 = 0 then index + 1 else index - 1

/-- The digest of the parent of the node at `index`, whose sibling's digest is given. -/
def parentHash (index : Nat) (node sibling : Digest) : Digest :=
  if index % 2 = 0 then Digest.hashPair node sibling else Digest.hashPair sibling node

end Merkle

/-- The siblings on the way from a leaf to the root. -/
structure MerklePath where
  siblings : List Digest
  deriving DecidableEq

namespace MerklePath

/-- The digest reached from the node at `index` past the given siblings. -/
def climb : List Digest → (index : Nat) → (node : Digest) → Digest
  | [], _, node => node
  | s :: siblings, index, node => climb siblings (index / 2) (Merkle.parentHash index node s)

/-- The root of a tree that has the given leaf at `index` and this path. -/
def rootFromLeaf (path : MerklePath) (index : Nat) (leaf : Digest) : Digest :=
  climb path.siblings index leaf

/-- The root of a tree that has the given word at `index` and this path. -/
def rootForWord (path : MerklePath) (index : Nat) (word : UInt32) : Digest :=
  path.rootFromLeaf index (Merkle.leafHash word)

/-- Whether the path shows that a tree of the given depth and root has the word at `index`. -/
def verifyWord (path : MerklePath) (root : Digest) (depth index : Nat) (word : UInt32) : Bool :=
  path.siblings.length = depth && index < 1 <<< depth && path.rootForWord index word = root

end MerklePath

end ReplayVM
