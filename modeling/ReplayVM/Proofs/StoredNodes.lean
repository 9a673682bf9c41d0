import Mathlib.Algebra.Ring.Nat
import ReplayVM.Proofs.MemoryConstruction
import ReplayVM.Proofs.PathAuthentication

/-!
# Which nodes a sparse tree stores

An update decides by its digest whether a node is stored, and a tree built from listed words stores
the parents of what it stores below. Both store the same nodes, those with a word below them that is
not zero, as long as no node above such a word has the digest of zeros. The number of stored nodes
is then a function of the words, whatever the history of the tree, and so is the space that a
memory is estimated to take.

## Main definitions

* `Merkle.NoFalseZeros`: no node above a word that is not zero has the digest of zeros.
* `MerkleTree.Stores`: whether a tree stores a node.
* `MerkleTree.updateAll`: a tree after some updates.
* `MerkleTree.StoresOccupied`: what a tree stores, and what its size does not depend on.

## Main results

* `Merkle.NoFalseZeros.of_collisionFree`: it holds where no two byte strings hashed in the tree
  and in the tree of zeros collide.
* `MerkleLevel.Holds.mem_nodes_iff`: a level stores exactly the nodes above words that are not zero.
* `MerkleTree.storesOccupied_of_reached`: so does every tree that was built.
* `Memory.WellFormed.residentBytes_rebuild`: building the tree of a memory again keeps its size.
-/

namespace ReplayVM

open Merkle

/-! ### Nodes and zeros -/

namespace Merkle

/-- No node of the tree over some words has the digest of zeros, unless it is above zeros only. -/
def NoFalseZeros (words : Nat → UInt32) (depth : Nat) : Prop :=
  ∀ height index, height ≤ depth → Occupied words height index →
    fullNode words height index ≠ zeroNode height

/-- A node above a word that is not zero differs from that of zeros, unless two of the byte strings
that are hashed for them collide. -/
theorem NoFalseZeros.of_collisionFree {words : Nat → UInt32} {depth : Nat}
    (hfree : CollisionFree fun x => TreeMessage words depth x ∨ TreeMessage (fun _ => 0) depth x)
    (hwords : ∀ i, 1 <<< depth ≤ i → words i = 0) : NoFalseZeros words depth := by
  intro height index hheight hoccupied hzero
  have hindex := lt_of_occupied hheight hwords hoccupied
  obtain ⟨i, hi, hword⟩ := hoccupied
  rw [← fullNode_zeros height index] at hzero
  exact hword <|
    eq_of_fullNode_eq hfree (fun _ => .inl) (fun _ => .inr) hheight hindex hzero hi

/-- Some words with those at the given indices replaced, one after the other. -/
def withWords (words : Nat → UInt32) (changes : List (Nat × UInt32)) : Nat → UInt32 :=
  changes.foldl (fun words p => withWord words p.1 p.2) words

theorem withWords_of_not_mem {words : Nat → UInt32} {changes : List (Nat × UInt32)} {i : Nat}
    (h : ∀ p ∈ changes, p.1 ≠ i) : withWords words changes i = words i := by
  induction changes generalizing words with
  | nil => rfl
  | cons p changes ih =>
    have hrest : withWords (withWord words p.1 p.2) changes i = withWord words p.1 p.2 i :=
      ih fun q hq => h q (List.mem_cons_of_mem _ hq)
    exact hrest.trans (withWord_of_ne words p.2 (h p List.mem_cons_self).symm)

/-- Of changes at distinct indices each one counts. -/
theorem withWords_of_mem {words : Nat → UInt32} {changes : List (Nat × UInt32)}
    (hnodup : (changes.map Prod.fst).Nodup) {p : Nat × UInt32} (hp : p ∈ changes) :
    withWords words changes p.1 = p.2 := by
  induction changes generalizing words with
  | nil => simp at hp
  | cons q changes ih =>
    rw [List.map_cons, List.nodup_cons] at hnodup
    rcases List.mem_cons.mp hp with rfl | hp
    · have hfirst : withWords (withWord words p.1 p.2) changes p.1 = withWord words p.1 p.2 p.1 :=
        withWords_of_not_mem fun q hq heq => hnodup.1 (heq ▸ List.mem_map_of_mem hq)
      exact hfirst.trans (withWord_self words p.1 p.2)
    · exact ih hnodup.2 hp

/-- Changes at distinct indices can be made in any order. -/
theorem withWords_perm {words : Nat → UInt32} {changes changes' : List (Nat × UInt32)}
    (hperm : changes'.Perm changes) (hnodup : (changes.map Prod.fst).Nodup) :
    withWords words changes' = withWords words changes := by
  funext i
  by_cases hi : ∃ p ∈ changes, p.1 = i
  · obtain ⟨p, hp, rfl⟩ := hi
    have hnodup' : (changes'.map Prod.fst).Nodup := (hperm.map Prod.fst).nodup_iff.mpr hnodup
    rw [withWords_of_mem hnodup hp, withWords_of_mem hnodup' (hperm.mem_iff.mpr hp)]
  · have hnone : ∀ p ∈ changes, p.1 ≠ i := fun p hp heq => hi ⟨p, hp, heq⟩
    rw [withWords_of_not_mem hnone,
      withWords_of_not_mem fun p hp => hnone p (hperm.mem_iff.mp hp)]

/-- Listed words are those that zeros become by writing them. -/
theorem listedWord_eq_withWords {ws : List (Nat × UInt32)} (hnodup : (ws.map Prod.fst).Nodup) :
    listedWord ws = withWords (fun _ => 0) ws := by
  funext i
  cases hlookup : ws.lookup i with
  | some word =>
    have hmem : (i, word) ∈ ws := (lookup_eq_some_iff_mem hnodup).mp hlookup
    rw [listedWord, hlookup, Option.getD_some]
    exact (withWords_of_mem hnodup hmem).symm
  | none =>
    have hnone : ∀ p ∈ ws, p.1 ≠ i := by
      rintro ⟨_, word⟩ hp rfl
      rw [(lookup_eq_some_iff_mem hnodup).mpr hp] at hlookup
      cases hlookup
    rw [listedWord, hlookup, Option.getD_none, withWords_of_not_mem hnone]

end Merkle

/-! ### Levels -/

namespace MerkleLevel

/-- A level stores exactly the nodes above words that are not zero. -/
theorem Holds.mem_nodes_iff {l : MerkleLevel} {words : Nat → UInt32} {height depth : Nat}
    (hl : l.Holds words height) (hzeros : NoFalseZeros words depth) (hheight : height ≤ depth)
    {i : Nat} : i ∈ l.nodes ↔ Occupied words height i := by
  refine ⟨hl.occupied i, fun hoccupied => ?_⟩
  by_contra hmem
  have hzero : fullNode words height i = zeroNode height := by
    rw [← hl.node_eq, node_of_not_mem hmem, hl.zero_eq]
  exact hzeros height i hheight hoccupied hzero

/-- Levels that hold the same words store equally many nodes. -/
theorem Holds.size_nodes_eq {l l' : MerkleLevel} {words : Nat → UInt32} {height depth : Nat}
    (hl : l.Holds words height) (hl' : l'.Holds words height) (hzeros : NoFalseZeros words depth)
    (hheight : height ≤ depth) : l.nodes.size = l'.nodes.size :=
  size_eq_of_mem_iff fun _ =>
    (hl.mem_nodes_iff hzeros hheight).trans (hl'.mem_nodes_iff hzeros hheight).symm

theorem AllHold.getElem? {words : Nat → UInt32} {start k : Nat} {levels : List MerkleLevel}
    {l : MerkleLevel} (h : AllHold words start levels) (hl : levels[k]? = some l) :
    l.Holds words (start + k) := by
  induction levels generalizing start k with
  | nil => simp at hl
  | cons lowest levels ih =>
    cases k with
    | zero =>
      obtain rfl : lowest = l := by simpa using hl
      exact h.1
    | succ k =>
      rw [← Nat.add_assoc, Nat.add_right_comm]
      exact ih h.2 (by simpa using hl)

end MerkleLevel

/-! ### Trees -/

namespace MerkleTree

variable {t t' : MerkleTree} {words : Nat → UInt32} {depth : Nat}

/-- Whether a tree stores the node at an index of the level of a height. -/
def Stores (t : MerkleTree) (height index : Nat) : Prop :=
  ∃ l, t.levels[height]? = some l ∧ index ∈ l.nodes

theorem storedNodes_eq_sum (t : MerkleTree) :
    t.storedNodes = (t.levels.map fun l => l.nodes.size).sum := by
  rw [storedNodes, ← List.foldl_map (f := fun l : MerkleLevel => l.nodes.size) (g := (· + ·)),
    List.sum_eq_foldl_nat]

theorem Holds.level (h : t.Holds words depth) {height : Nat} {l : MerkleLevel}
    (hl : t.levels[height]? = some l) : height ≤ depth ∧ l.Holds words height := by
  have hlt := (List.getElem?_eq_some_iff.mp hl).1
  rw [h.length_levels] at hlt
  have hlevel := h.levels.getElem? hl
  rw [Nat.zero_add] at hlevel
  exact ⟨Nat.le_of_lt_succ hlt, hlevel⟩

/-- A tree stores exactly the nodes above words that are not zero. -/
theorem Holds.stores_iff (h : t.Holds words depth) (hzeros : NoFalseZeros words depth)
    {height index : Nat} :
    t.Stores height index ↔ height ≤ depth ∧ Occupied words height index := by
  constructor
  · rintro ⟨l, hl, hmem⟩
    obtain ⟨hheight, hlevel⟩ := h.level hl
    exact ⟨hheight, hlevel.occupied index hmem⟩
  · rintro ⟨hheight, hoccupied⟩
    have hlt : height < t.levels.length := by
      rw [h.length_levels]
      exact Nat.lt_succ_of_le hheight
    have hl : t.levels[height]? = some t.levels[height] := List.getElem?_eq_getElem hlt
    exact ⟨_, hl, ((h.level hl).2.mem_nodes_iff hzeros hheight).mpr hoccupied⟩

/-- Trees that hold the same words store equally many nodes. -/
theorem Holds.storedNodes_eq (h : t.Holds words depth) (h' : t'.Holds words depth)
    (hzeros : NoFalseZeros words depth) : t'.storedNodes = t.storedNodes := by
  have hlength : t'.levels.length = t.levels.length := h'.length_levels.trans h.length_levels.symm
  have hsizes : t'.levels.map (fun l => l.nodes.size) = t.levels.map fun l => l.nodes.size := by
    refine List.ext_getElem (by simp [hlength]) fun k hk' hk => ?_
    rw [List.getElem_map, List.getElem_map]
    rw [List.length_map] at hk hk'
    obtain ⟨hheight, hlevel⟩ := h.level (List.getElem?_eq_getElem hk)
    have hlevel' := (h'.level (List.getElem?_eq_getElem hk')).2
    exact hlevel'.size_nodes_eq hlevel hzeros hheight
  rw [storedNodes_eq_sum, storedNodes_eq_sum, hsizes]

/-- The tree over zeros stores no node. -/
theorem Holds.storedNodes_zeros (h : t.Holds (fun _ => 0) depth) : t.storedNodes = 0 := by
  rw [storedNodes_eq_sum, List.sum_eq_zero_iff_forall_eq_nat]
  intro n hn
  obtain ⟨l, hl, rfl⟩ := List.mem_map.mp hn
  obtain ⟨height, hheight⟩ := List.mem_iff_getElem?.mp hl
  have hnone : ∀ i, i ∉ l.nodes := by
    intro i hi
    obtain ⟨_, _, hne⟩ := (h.level hheight).2.occupied i hi
    exact hne rfl
  exact size_eq_of_mem_iff (u := ∅) fun i => iff_of_false (hnone i) Std.TreeMap.not_mem_emptyc

/-! ### Histories -/

/-- The words that a history leaves are zero from the size of the tree on. -/
theorem Reached.eq_zero (h : Reached depth t words) {i : Nat} (hi : 1 <<< depth ≤ i) :
    words i = 0 := by
  induction h with
  | empty => rfl
  | ofWords hnodup hbelow =>
    rw [listedWord_eq_withWords hnodup]
    exact withWords_of_not_mem fun p hp heq => absurd (hbelow p hp) (by omega)
  | update _ hindex word ih =>
    rw [withWord_of_ne _ word (by omega), ih]

/-- The nodes of a tree that was built are apart from zeros, as far as nothing hashed collides. -/
theorem Reached.noFalseZeros (h : Reached depth t words)
    (hfree : CollisionFree fun x => TreeMessage words depth x ∨ TreeMessage (fun _ => 0) depth x) :
    NoFalseZeros words depth :=
  .of_collisionFree hfree fun _ => h.eq_zero

/-- A tree after some updates. -/
def updateAll (t : MerkleTree) (changes : List (Nat × UInt32)) : MerkleTree :=
  changes.foldl (fun t p => t.update p.1 p.2) t

theorem Reached.updateAll (h : Reached depth t words) {changes : List (Nat × UInt32)}
    (hbelow : ∀ p ∈ changes, p.1 < 1 <<< depth) :
    Reached depth (t.updateAll changes) (withWords words changes) := by
  induction changes generalizing t words with
  | nil => exact h
  | cons p changes ih =>
    exact ih (h.update (hbelow p List.mem_cons_self) p.2) fun q hq =>
      hbelow q (List.mem_cons_of_mem _ hq)

/-- What a tree stores over some words, and what the number of its nodes does not depend on: its
history, the order of its updates, and whether it was built at once. -/
structure StoresOccupied (t : MerkleTree) (depth : Nat) (words : Nat → UInt32) : Prop where
  stores_iff : ∀ height index, t.Stores height index ↔ height ≤ depth ∧ Occupied words height index
  history : ∀ t', Reached depth t' words → t'.storedNodes = t.storedNodes
  bulk : ∀ ws : List (Nat × UInt32), (ws.map Prod.fst).Nodup → (∀ p ∈ ws, p.1 < 1 <<< depth) →
    withWords (fun _ => 0) ws = words → (ofWords depth ws).storedNodes = t.storedNodes
  order : ∀ (t₀ : MerkleTree) (words₀ : Nat → UInt32) (changes changes' : List (Nat × UInt32)),
    Reached depth t₀ words₀ → (changes.map Prod.fst).Nodup → (∀ p ∈ changes, p.1 < 1 <<< depth) →
    withWords words₀ changes = words → changes'.Perm changes →
      (t₀.updateAll changes').storedNodes = t.storedNodes
  residentBytes : ∀ m m' : Memory, m.tree = t → Reached depth m'.tree words →
    m'.pageSize = m.pageSize → m'.pages.size = m.pages.size → m'.residentBytes = m.residentBytes
  zeros : (∀ i, words i = 0) → t.storedNodes = 0

/-- **A sparse tree stores the part of memory that is not zero.** A tree that was built by updates
from the empty tree, or from words at distinct indices, stores a node exactly when a word below it
is not zero. So the number of its nodes depends on its words only, and is zero over zeros. This
asks of the hash that no node above a word that is not zero has the digest of zeros. -/
theorem storesOccupied_of_reached (h : Reached depth t words)
    (hzeros : NoFalseZeros words depth) : t.StoresOccupied depth words where
  stores_iff _ _ := h.holds.stores_iff hzeros
  history _ h' := h.holds.storedNodes_eq h'.holds hzeros
  bulk ws hnodup hbelow hwords := by
    have h' : Reached depth (ofWords depth ws) (listedWord ws) := .ofWords hnodup hbelow
    rw [listedWord_eq_withWords hnodup, hwords] at h'
    exact h.holds.storedNodes_eq h'.holds hzeros
  order t₀ words₀ changes changes' h₀ hnodup hbelow hwords hperm := by
    have h' : Reached depth (t₀.updateAll changes') (withWords words₀ changes') :=
      h₀.updateAll fun p hp => hbelow p (hperm.mem_iff.mp hp)
    rw [withWords_perm hperm hnodup, hwords] at h'
    exact h.holds.storedNodes_eq h'.holds hzeros
  residentBytes m m' htree h' hpageSize hpages := by
    subst htree
    rw [Memory.residentBytes, Memory.residentBytes, hpageSize, hpages,
      h.holds.storedNodes_eq h'.holds hzeros]
  zeros hzero := by
    obtain rfl : words = fun _ => 0 := funext hzero
    exact h.holds.storedNodes_zeros

end MerkleTree

namespace PairTree

/-- The nodes above the words of the tree over two words differ from those of zeros. -/
theorem noFalseZeros_words : NoFalseZeros words 1 := by
  have hleaf (word : UInt32) (h : Digest.evaluate (Bytes.ofWord word) ≠
      Digest.evaluate (Bytes.ofWord 0)) : leafHash word ≠ leafHash 0 := by
    rwa [leafHash_eq_evaluate, leafHash_eq_evaluate]
  have hfirst : leafHash 1 ≠ leafHash 0 := hleaf 1 (by decide +kernel)
  have hsecond : leafHash 2 ≠ leafHash 0 := hleaf 2 (by decide +kernel)
  have hroot : Digest.hashPair (leafHash 1) (leafHash 2) ≠
      Digest.hashPair (leafHash 0) (leafHash 0) := by
    simp only [Digest.hashPair, leafHash_eq_evaluate, Digest.hash_eq_evaluate]
    decide +kernel
  intro height index hheight hoccupied
  have hindex := lt_of_occupied hheight (fun _ => reached_tree.eq_zero) hoccupied
  obtain rfl | rfl : height = 0 ∨ height = 1 := by omega
  · have hlt : index < 2 := hindex
    obtain rfl | rfl : index = 0 ∨ index = 1 := by omega
    · exact hfirst
    · exact hsecond
  · obtain rfl : index = 0 := Nat.lt_one_iff.mp hindex
    exact hroot

end PairTree

open PairTree in
/-- The tree over two words stores both of its leaves; the two updates that wrote them can be made
in the other order. -/
theorem MerkleTree.storesOccupied_of_reached_pairTree :
    tree.StoresOccupied 1 words ∧ tree.Stores 0 0 ∧ tree.Stores 0 1 ∧
    ((empty 1).updateAll [(1, 2), (0, 1)]).storedNodes = tree.storedNodes := by
  have h : tree.StoresOccupied 1 words :=
    storesOccupied_of_reached reached_tree noFalseZeros_words
  refine ⟨h, (h.stores_iff 0 0).mpr ⟨by decide, 0, rfl, by decide⟩,
    (h.stores_iff 0 1).mpr ⟨by decide, 1, rfl, by decide⟩, ?_⟩
  have hwords : withWords (fun _ => 0) [(0, 1), (1, 2)] = words := by
    rw [words, listedWord_eq_withWords (by decide)]
    rfl
  exact h.order (empty 1) _ [(0, 1), (1, 2)] _ .empty (by decide) (by decide) hwords
    (List.Perm.swap _ _ _)

namespace Memory

/-- Building the tree of a memory again keeps the space that the memory is estimated to take. -/
theorem WellFormed.residentBytes_rebuild {m : Memory} (h : m.WellFormed)
    (hzeros : NoFalseZeros m.wordAt (treeDepth m.memoryBits)) :
    m.rebuild.residentBytes = m.residentBytes := by
  have hstored : m.rebuild.tree.storedNodes = m.tree.storedNodes :=
    h.tree.storedNodes_eq h.toFits.wellFormed_rebuild.tree hzeros
  rw [residentBytes, residentBytes, hstored]
  rfl

end Memory

end ReplayVM
