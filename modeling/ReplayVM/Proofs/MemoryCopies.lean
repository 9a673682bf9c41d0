import ReplayVM.Proofs.MemorySimulation
import ReplayVM.Proofs.RowReplay
import ReplayVM.Proofs.SnapshotLaws
import ReplayVM.Proofs.StoredNodes
import ReplayVM.Proofs.WitnessSpace

/-!
# Memories with the same pages

A memory that was decoded has the pages of the one that was encoded, but a tree that was built in
one go, where the tree of the other was kept up to date by every store. The two trees answer with
the same digests, so machines cannot tell the memories apart. As long as no other words hash like
zeros, both trees also store the same nodes, and the two memories take the same space.

## Main definitions

* `MerkleTree.Alike`: trees that answer with the same digests.
* `Memory.Alike`: memories with the same pages and trees that are alike.
* `Memory.ApartFromZeros`: what is hashed for a memory does not collide with what is hashed for
  zeros.

## Main results

* `Memory.SamePages.snapshot_eq`: memories with the same pages have the same encoding.
* `Memory.WellFormed.alike`: well-formed memories with the same pages are alike.
* `Memory.Alike.simulation`: machines do not tell memories that are alike apart.
* `Memory.residentBytes_eq`: well-formed memories with the same pages take the same space.
-/

namespace ReplayVM

open Merkle

/-! ### Trees that are alike -/

/-- Levels that answer with the same digests. They may store different nodes. -/
structure MerkleLevel.Alike (l k : MerkleLevel) : Prop where
  zero_eq : l.zero = k.zero
  node_eq : ∀ i, l.node i = k.node i

/-- Trees whose levels answer with the same digests. -/
def MerkleTree.Alike (t u : MerkleTree) : Prop := t.levels.Forall₂ MerkleLevel.Alike u.levels

namespace MerkleLevel

theorem Alike.set {l k : MerkleLevel} (h : l.Alike k) (index : Nat) (d : Digest) :
    (l.set index d).Alike (k.set index d) where
  zero_eq := h.zero_eq
  node_eq i := by rw [node_set, node_set, h.node_eq]

theorem Holds.alike {l k : MerkleLevel} {words : Nat → UInt32} {height : Nat}
    (hl : l.Holds words height) (hk : k.Holds words height) : l.Alike k where
  zero_eq := hl.zero_eq.trans hk.zero_eq.symm
  node_eq i := (hl.node_eq i).trans (hk.node_eq i).symm

theorem AllHold.alike {words : Nat → UInt32} {height : Nat} {levels levels' : List MerkleLevel}
    (h : AllHold words height levels) (h' : AllHold words height levels')
    (hlen : levels.length = levels'.length) : levels.Forall₂ Alike levels' := by
  induction levels generalizing height levels' with
  | nil =>
    obtain rfl := List.length_eq_zero_iff.mp hlen.symm
    exact .nil
  | cons l levels ih =>
    cases levels' with
    | nil => simp at hlen
    | cons k levels' => exact .cons (h.1.alike h'.1) (ih h.2 h'.2 (Nat.succ.inj hlen))

end MerkleLevel

namespace MerkleTree

variable {levels levels' : List MerkleLevel} {t u : MerkleTree}

theorem rootOf_eq_of_alike (h : levels.Forall₂ MerkleLevel.Alike levels') :
    rootOf levels = rootOf levels' := by
  induction h with
  | nil => rfl
  | cons hl hrest ih =>
    cases hrest with
    | nil => exact hl.node_eq 0
    | cons => exact ih

theorem siblingsFrom_eq_of_alike (h : levels.Forall₂ MerkleLevel.Alike levels') (index : Nat) :
    siblingsFrom levels index = siblingsFrom levels' index := by
  induction h generalizing index with
  | nil => rfl
  | cons hl hrest ih =>
    cases hrest with
    | nil => rfl
    | cons => simp only [siblingsFrom, hl.node_eq, ih]

theorem updateFrom_alike (h : levels.Forall₂ MerkleLevel.Alike levels') (index : Nat) (d : Digest) :
    (updateFrom levels index d).Forall₂ MerkleLevel.Alike (updateFrom levels' index d) := by
  induction h generalizing index d with
  | nil => exact .nil
  | cons hl hrest ih =>
    rw [updateFrom, updateFrom, hl.node_eq]
    exact .cons (hl.set index d) (ih _ _)

theorem Alike.root_eq (h : t.Alike u) : t.root = u.root := rootOf_eq_of_alike h

theorem Alike.path_eq (h : t.Alike u) (index : Nat) : t.path index = u.path index :=
  congrArg MerklePath.mk (siblingsFrom_eq_of_alike h index)

theorem Alike.update (h : t.Alike u) (index : Nat) (word : UInt32) :
    (t.update index word).Alike (u.update index word) :=
  updateFrom_alike h index _

/-- Trees that hold the same words are alike. -/
theorem Holds.alike {words : Nat → UInt32} {depth : Nat} (ht : t.Holds words depth)
    (hu : u.Holds words depth) : t.Alike u :=
  ht.levels.alike hu.levels (ht.length_levels.trans hu.length_levels.symm)

end MerkleTree

/-! ### Memories -/

namespace Memory

variable {m n : Memory}

theorem SamePages.loadWord_eq (h : m.SamePages n) (addr : UInt32) :
    n.loadWord addr = m.loadWord addr := by
  rw [loadWord, loadWord, h.pageSize_eq, h.pages_eq]

theorem SamePages.wordAt_eq (h : m.SamePages n) : n.wordAt = m.wordAt := by
  funext i
  rw [wordAt, wordAt, h.memoryBits_eq, h.loadWord_eq]

/-- Memories with the same pages list them in the same way. -/
theorem SamePages.toList_eq (h : m.SamePages n) : n.pages.toList = m.pages.toList :=
  (Std.TreeMap.Equiv.of_forall_constGet?_eq h.pages_eq).toList_eq

/-- Memories with the same pages have the same encoding. -/
theorem SamePages.snapshot_eq (h : m.SamePages n) : n.snapshot = m.snapshot := by
  rw [snapshot, snapshot, h.pageSize_eq, h.memoryBits_eq, h.toList_eq]

/-- Memories with the same pages build the same tree. -/
theorem SamePages.words_eq (h : m.SamePages n) : n.words = m.words := by
  rw [words, words, h.pageSize_eq, h.toList_eq]

theorem SamePages.getElem?_writePage (h : m.SamePages n) (addr : UInt32) (bytes : Bytes)
    (number : UInt32) :
    (n.writePage addr bytes).pages[number]? = (m.writePage addr bytes).pages[number]? := by
  rw [getElem?_pages_writePage, getElem?_pages_writePage, pageOf, pageOf, h.pageSize_eq,
    h.pages_eq, h.pages_eq]

/-- Memories with the same pages whose trees answer with the same digests. -/
structure Alike (m n : Memory) : Prop extends m.SamePages n where
  tree : m.tree.Alike n.tree

/-- Well-formed memories with the same pages are alike. -/
theorem WellFormed.alike (hm : m.WellFormed) (hn : n.WellFormed) (h : m.SamePages n) :
    m.Alike n where
  toSamePages := h
  tree := by
    have htree := hn.tree
    rw [h.wordAt_eq, h.memoryBits_eq] at htree
    exact hm.tree.alike htree

theorem Alike.root_eq (h : m.Alike n) : m.root = n.root := h.tree.root_eq

theorem Alike.storeWord (h : m.Alike n) (addr value : UInt32) :
    (m.storeWord addr value).Alike (n.storeWord addr value) where
  pageSize_eq := h.pageSize_eq
  memoryBits_eq := h.memoryBits_eq
  pages_eq := h.getElem?_writePage addr (Bytes.ofWord value)
  tree := h.tree.update _ _

/-- Machines do not tell memories that are alike apart, under whatever parameters. -/
theorem Alike.simulation {params : Params} : Simulation params Alike where
  loadWord_eq h _ := (h.loadWord_eq _).symm
  storeWord value h _ := h.storeWord _ value
  root_eq h := h.root_eq
  path_eq h _ := h.tree.path_eq _

/-- A memory in whose tree nothing is hashed that collides with what is hashed for zeros. -/
def ApartFromZeros (m : Memory) : Prop :=
  CollisionFree fun x =>
    m.TreeMessage x ∨ Merkle.TreeMessage (fun _ => 0) (treeDepth m.memoryBits) x

/-- Well-formed memories with the same pages take the same space, unless what is hashed in their
trees collides with what is hashed for zeros. -/
theorem residentBytes_eq (hm : m.WellFormed) (hn : n.WellFormed) (h : m.SamePages n)
    (hfree : m.ApartFromZeros) : m.residentBytes = n.residentBytes := by
  have htree := hn.tree
  rw [h.wordAt_eq, h.memoryBits_eq] at htree
  have hnodes := htree.storedNodes_eq hm.tree (.of_collisionFree hfree fun _ => wordAt_of_le)
  have hpages : m.pages.size = n.pages.size := size_eq_of_mem_iff fun number => by
    rw [Std.TreeMap.mem_iff_isSome_getElem?, Std.TreeMap.mem_iff_isSome_getElem?, h.pages_eq]
  rw [residentBytes, residentBytes, hnodes, hpages, h.pageSize_eq]

end Memory

end ReplayVM
