import Mathlib.Data.List.Induction
import Mathlib.Data.List.Nodup
import Mathlib.Data.List.Perm.Subperm
import ReplayVM.Merkle.Tree
import ReplayVM.Proofs.Preimages

/-!
# Sparse trees and full trees

The tree of a memory is the full binary hash tree over the words of its address space; the sparse
tree is a way of storing it. A full tree is given by a function from indices to words, and its nodes
are found by recursion on the height. A sparse tree *holds* such a function when each of its levels
answers with the digests of the full tree and stores nodes above non-zero words only. An update
keeps this up, and both ways of building a tree establish it.

## Main definitions

* `Merkle.fullNode`, `Merkle.fullPath`: the nodes and the paths of the full tree over some words.
* `Merkle.TreeMessage`: the byte strings that are hashed in a full tree.
* `MerkleLevel.Holds`, `MerkleTree.Holds`: a level and a tree that store those of a full tree.

## Main results

* `MerkleTree.Holds.update`: an update changes one word.
* `MerkleTree.Holds.root_eq`, `MerkleTree.Holds.path_eq`: root and paths are those of the full tree.
* `MerkleTree.holds_empty`, `MerkleTree.holds_ofWords`: trees that were built hold their words.
* `Merkle.eq_of_fullNode_eq`: a node binds the words below it.
-/

namespace ReplayVM

namespace Merkle

/-! ### Full trees -/

/-- The digest of a node of the full tree over some words. -/
def fullNode (words : Nat → UInt32) : (height index : Nat) → Digest
  | 0, index => leafHash (words index)
  | height + 1, index =>
    Digest.hashPair (fullNode words height (2 * index)) (fullNode words height (2 * index + 1))

/-- The byte string that is hashed for a node of the full tree over some words. -/
def fullMessage (words : Nat → UInt32) : (height index : Nat) → Bytes
  | 0, index => Bytes.ofWord (words index)
  | height + 1, index =>
    Digest.pairBytes (fullNode words height (2 * index)) (fullNode words height (2 * index + 1))

theorem hash_fullMessage (words : Nat → UInt32) (height index : Nat) :
    Digest.hash (fullMessage words height index) = fullNode words height index := by
  cases height <;> rfl

/-- The byte strings that are hashed in the full tree of a depth over some words. -/
def TreeMessage (words : Nat → UInt32) (depth : Nat) : Bytes → Prop := fun x =>
  ∃ height index, height ≤ depth ∧ index < 1 <<< (depth - height) ∧
    x = fullMessage words height index

/-- The siblings of a number of nodes on the way up from a node of the full tree. -/
def fullPath (words : Nat → UInt32) : (count height index : Nat) → List Digest
  | 0, _, _ => []
  | count + 1, height, index =>
    fullNode words height (sibling index) :: fullPath words count (height + 1) (index / 2)

theorem length_fullPath (words : Nat → UInt32) (count height index : Nat) :
    (fullPath words count height index).length = count := by
  induction count generalizing height index with
  | zero => rfl
  | succ count ih => simp only [fullPath, List.length_cons, ih]

theorem sibling_ne (index : Nat) : sibling index ≠ index := by
  unfold sibling
  split <;> omega

/-- A parent is found from either child. -/
theorem parentHash_fullNode (words : Nat → UInt32) (height index : Nat) :
    parentHash index (fullNode words height index) (fullNode words height (sibling index)) =
      fullNode words (height + 1) (index / 2) := by
  unfold parentHash sibling
  split
  · rw [fullNode, show 2 * (index / 2) = index by omega]
  · rw [fullNode, show 2 * (index / 2) = index - 1 by omega,
      show index - 1 + 1 = index by omega]

/-! ### Changing a word -/

/-- Some words with the one at an index replaced. -/
def withWord (words : Nat → UInt32) (index : Nat) (word : UInt32) : Nat → UInt32 :=
  fun i => if i = index then word else words i

@[simp] theorem withWord_self (words : Nat → UInt32) (index : Nat) (word : UInt32) :
    withWord words index word index = word := by
  simp [withWord]

theorem withWord_of_ne (words : Nat → UInt32) {index i : Nat} (word : UInt32) (h : i ≠ index) :
    withWord words index word i = words i := by
  simp [withWord, h]

theorem shiftRight_succ_eq_div (i height : Nat) : i >>> (height + 1) = i >>> height / 2 := rfl

/-- A change of a word leaves the nodes that are not above it. -/
theorem fullNode_withWord_of_ne (words : Nat → UInt32) (index : Nat) (word : UInt32)
    {height i : Nat} (h : index >>> height ≠ i) :
    fullNode (withWord words index word) height i = fullNode words height i := by
  induction height generalizing i with
  | zero => exact congrArg leafHash (withWord_of_ne words word (Ne.symm h))
  | succ height ih =>
    rw [shiftRight_succ_eq_div] at h
    rw [fullNode, fullNode, ih (by omega), ih (by omega)]

/-- A change of a word leaves what is hashed for the nodes that are not above it. -/
theorem fullMessage_withWord_of_ne (words : Nat → UInt32) (index : Nat) (word : UInt32)
    {height i : Nat} (h : index >>> height ≠ i) :
    fullMessage (withWord words index word) height i = fullMessage words height i := by
  cases height with
  | zero => exact congrArg Bytes.ofWord (withWord_of_ne words word (Ne.symm h))
  | succ height =>
    rw [shiftRight_succ_eq_div] at h
    rw [fullMessage, fullMessage, fullNode_withWord_of_ne words index word (by omega),
      fullNode_withWord_of_ne words index word (by omega)]

/-- The path of a word does not depend on the word. -/
theorem fullPath_withWord (words : Nat → UInt32) (index : Nat) (word : UInt32)
    (count height : Nat) :
    fullPath (withWord words index word) count height (index >>> height) =
      fullPath words count height (index >>> height) := by
  induction count generalizing height with
  | zero => rfl
  | succ count ih =>
    have hs := fullNode_withWord_of_ne words index word (Ne.symm (sibling_ne (index >>> height)))
    rw [fullPath, fullPath, hs, ← shiftRight_succ_eq_div, ih]

/-! ### Zeros -/

/-- The root of the full tree over zeros. -/
def zeroNode (height : Nat) : Digest := fullNode (fun _ => 0) height 0

/-- Whether a word below a node is not zero. -/
def Occupied (words : Nat → UInt32) (height index : Nat) : Prop :=
  ∃ i, i >>> height = index ∧ words i ≠ 0

theorem occupied_succ (words : Nat → UInt32) (height index : Nat) :
    Occupied words (height + 1) index ↔
      Occupied words height (2 * index) ∨ Occupied words height (2 * index + 1) := by
  constructor
  · rintro ⟨i, hi, hw⟩
    rw [shiftRight_succ_eq_div] at hi
    rcases Nat.mod_two_eq_zero_or_one (i >>> height) with h | h
    · exact .inl ⟨i, by omega, hw⟩
    · exact .inr ⟨i, by omega, hw⟩
  · rintro (⟨i, hi, hw⟩ | ⟨i, hi, hw⟩)
    · exact ⟨i, by rw [shiftRight_succ_eq_div]; omega, hw⟩
    · exact ⟨i, by rw [shiftRight_succ_eq_div]; omega, hw⟩

theorem fullNode_zeros (height index : Nat) :
    fullNode (fun _ => 0) height index = zeroNode height := by
  unfold zeroNode
  induction height generalizing index with
  | zero => rfl
  | succ height ih =>
    simp only [fullNode]
    rw [ih (2 * index), ih (2 * index + 1), ih (2 * 0), ih (2 * 0 + 1)]

theorem zeroNode_succ (height : Nat) :
    zeroNode (height + 1) = Digest.hashPair (zeroNode height) (zeroNode height) := by
  conv_lhs => rw [zeroNode, fullNode]
  rw [fullNode_zeros, fullNode_zeros]

theorem zerosFrom_eq (n height : Nat) :
    zerosFrom n (zeroNode height) = (List.range' height (n + 1)).map zeroNode := by
  induction n generalizing height with
  | zero => rfl
  | succ n ih =>
    rw [zerosFrom, ← zeroNode_succ, ih]
    rfl

theorem fullPath_zeros (count height index : Nat) :
    fullPath (fun _ => 0) count height index = (List.range' height count).map zeroNode := by
  induction count generalizing height index with
  | zero => rfl
  | succ count ih =>
    rw [fullPath, fullNode_zeros, ih]
    rfl

/-- A node above zeros only is the zero node of its height. -/
theorem fullNode_of_not_occupied {words : Nat → UInt32} {height index : Nat}
    (h : ¬ Occupied words height index) : fullNode words height index = zeroNode height := by
  induction height generalizing index with
  | zero =>
    have hw : words index = 0 := by
      by_contra hne
      exact h ⟨index, rfl, hne⟩
    exact congrArg leafHash hw
  | succ height ih =>
    rw [occupied_succ, not_or] at h
    rw [fullNode, ih h.1, ih h.2, zeroNode_succ]

/-- The nodes above the leaves of a tree are nodes of the tree. -/
theorem shiftRight_lt {depth height i : Nat} (hd : height ≤ depth) (hi : i < 1 <<< depth) :
    i >>> height < 1 <<< (depth - height) := by
  rw [Nat.one_shiftLeft] at hi ⊢
  rw [Nat.shiftRight_eq_div_pow, Nat.div_lt_iff_lt_mul (Nat.two_pow_pos height), ← Nat.pow_add]
  rwa [Nat.sub_add_cancel hd]

/-- Words that are zero from some index on occupy nodes up to that index only. -/
theorem lt_of_occupied {words : Nat → UInt32} {depth height index : Nat} (hd : height ≤ depth)
    (hwords : ∀ i, 1 <<< depth ≤ i → words i = 0) (h : Occupied words height index) :
    index < 1 <<< (depth - height) := by
  obtain ⟨i, rfl, hw⟩ := h
  exact shiftRight_lt hd (Nat.lt_of_not_le fun hle => hw (hwords i hle))

/-! ### What a node binds -/

/-- Full trees with one node agree in every word below it, unless the byte strings that are hashed
in them collide. -/
theorem eq_of_fullNode_eq {hashed : Bytes → Prop} (hfree : CollisionFree hashed)
    {words words' : Nat → UInt32} {depth height index : Nat}
    (hwords : ∀ x, TreeMessage words depth x → hashed x)
    (hwords' : ∀ x, TreeMessage words' depth x → hashed x) (hheight : height ≤ depth)
    (hindex : index < 1 <<< (depth - height))
    (h : fullNode words height index = fullNode words' height index) {i : Nat}
    (hi : i >>> height = index) : words i = words' i := by
  have hmessage {height index : Nat} (hheight : height ≤ depth)
      (hindex : index < 1 <<< (depth - height))
      (h : fullNode words height index = fullNode words' height index) :
      fullMessage words height index = fullMessage words' height index :=
    hfree _ _ (hwords _ ⟨height, index, hheight, hindex, rfl⟩)
      (hwords' _ ⟨height, index, hheight, hindex, rfl⟩)
      (by rw [hash_fullMessage, hash_fullMessage, h])
  induction height generalizing index with
  | zero =>
    obtain rfl : i = index := hi
    exact Bytes.ofWord_inj.mp (hmessage hheight hindex h)
  | succ height ih =>
    obtain ⟨hleft, hright⟩ := Digest.pairBytes_inj.mp (hmessage hheight hindex h)
    -- The word lies below one of the two children, and both trees agree in either.
    have hchild : fullNode words height (i >>> height) = fullNode words' height (i >>> height) := by
      rw [shiftRight_succ_eq_div] at hi
      rcases Nat.mod_two_eq_zero_or_one (i >>> height) with hmod | hmod
      · rwa [show i >>> height = 2 * index by omega]
      · rwa [show i >>> height = 2 * index + 1 by omega]
    have hbelow : i >>> height < 1 <<< (depth - height) := by
      rw [shiftRight_succ_eq_div] at hi
      rw [show depth - height = depth - (height + 1) + 1 by omega, Nat.one_shiftLeft, Nat.pow_succ,
        ← Nat.one_shiftLeft]
      omega
    exact ih (by omega) hbelow hchild rfl

end Merkle

/-! ### Sizes of maps -/

section

variable {α β : Type} [Ord α] [Std.TransOrd α] [Std.LawfulEqOrd α] {t u : Std.TreeMap α β}

/-- A map whose keys are numbered below a bound has no more entries than the bound. -/
theorem size_le_of_keys_lt (number : α → Nat) (hinj : Function.Injective number) {bound : Nat}
    (h : ∀ k ∈ t, number k < bound) : t.size ≤ bound := by
  have hnodup : (t.keys.map number).Nodup := Std.TreeMap.nodup_keys.map hinj
  have hsub : t.keys.map number ⊆ List.range bound := by
    intro n hn
    obtain ⟨k, hk, rfl⟩ := List.mem_map.mp hn
    exact List.mem_range.mpr (h k (Std.TreeMap.mem_keys.mp hk))
  have hle := (List.subperm_of_subset hnodup hsub).length_le
  rwa [List.length_map, Std.TreeMap.length_keys, List.length_range] at hle

/-- Maps with the same keys have the same size. -/
theorem size_eq_of_mem_iff (h : ∀ k, k ∈ t ↔ k ∈ u) : t.size = u.size := by
  have hperm : t.keys.Perm u.keys := by
    rw [List.perm_ext_iff_of_nodup Std.TreeMap.nodup_keys Std.TreeMap.nodup_keys]
    simpa only [Std.TreeMap.mem_keys] using h
  rw [← Std.TreeMap.length_keys, ← Std.TreeMap.length_keys, hperm.length_eq]

end

/-! ### Levels -/

open Merkle

namespace MerkleLevel

/-- A level that answers with the nodes of a height of the full tree, and stores nodes above
non-zero words only. -/
structure Holds (l : MerkleLevel) (words : Nat → UInt32) (height : Nat) : Prop where
  node_eq : ∀ i, l.node i = fullNode words height i
  zero_eq : l.zero = zeroNode height
  occupied : ∀ i ∈ l.nodes, Occupied words height i

theorem node_of_not_mem {l : MerkleLevel} {i : Nat} (h : i ∉ l.nodes) : l.node i = l.zero :=
  Std.TreeMap.getD_eq_fallback h

theorem node_set (l : MerkleLevel) (index i : Nat) (d : Digest) :
    (l.set index d).node i = if i = index then d else l.node i := by
  unfold set node
  split <;> rename_i h
  · rw [Std.TreeMap.getD_erase]
    simp only [Nat.compare_eq_eq, eq_comm (a := index)]
    split
    · exact h.symm
    · rfl
  · rw [Std.TreeMap.getD_insert]
    simp only [Nat.compare_eq_eq, eq_comm (a := index)]

theorem mem_nodes_set {l : MerkleLevel} {index i : Nat} {d : Digest}
    (h : i ∈ (l.set index d).nodes) : (i ≠ index ∧ i ∈ l.nodes) ∨ (i = index ∧ d ≠ l.zero) := by
  unfold set at h
  simp only at h
  split at h <;> rename_i hd
  · rw [Std.TreeMap.mem_erase] at h
    exact .inl ⟨fun hi => h.1 (Nat.compare_eq_eq.mpr hi.symm), h.2⟩
  · rw [Std.TreeMap.mem_insert] at h
    by_cases hi : i = index
    · exact .inr ⟨hi, hd⟩
    · exact .inl ⟨hi, h.resolve_left fun hc => hi (Nat.compare_eq_eq.mp hc).symm⟩

/-- A level follows a change of a word. -/
theorem Holds.set {l : MerkleLevel} {words : Nat → UInt32} {height : Nat}
    (hl : l.Holds words height) (index : Nat) (word : UInt32) :
    (l.set (index >>> height)
      (fullNode (withWord words index word) height (index >>> height))).Holds
        (withWord words index word) height where
  node_eq i := by
    rw [node_set]
    split
    · rename_i h
      rw [h]
    · rename_i h
      rw [hl.node_eq, fullNode_withWord_of_ne words index word (Ne.symm h)]
  zero_eq := hl.zero_eq
  occupied i hi := by
    rcases mem_nodes_set hi with ⟨hne, hmem⟩ | ⟨rfl, hd⟩
    · obtain ⟨j, hj, hw⟩ := hl.occupied i hmem
      refine ⟨j, hj, ?_⟩
      rwa [withWord_of_ne]
      rintro rfl
      exact hne hj.symm
    · by_contra hocc
      exact hd ((fullNode_of_not_occupied hocc).trans hl.zero_eq.symm)

/-! ### Building levels -/

/-- The words that a list of words describes: the last one that is not zero counts. -/
def described (ws : List (Nat × UInt32)) : Nat → UInt32 :=
  ws.foldl (fun words (index, word) => if word = 0 then words else withWord words index word)
    fun _ => 0

theorem described_concat (ws : List (Nat × UInt32)) (index : Nat) (word : UInt32) :
    described (ws ++ [(index, word)]) =
      if word = 0 then described ws else withWord (described ws) index word := by
  simp [described]

/-- A list describes the words that it lists, where it lists every word that is not zero. -/
theorem described_eq {ws : List (Nat × UInt32)} {words : Nat → UInt32}
    (hsound : ∀ p ∈ ws, p.2 = words p.1) (hcomplete : ∀ i, words i ≠ 0 → (i, words i) ∈ ws) :
    described ws = words := by
  have hlisted (i : Nat) : described ws i = if (i, words i) ∈ ws then words i else 0 := by
    clear hcomplete
    induction ws using List.reverseRecOn with
    | nil => simp [described]
    | append_singleton ws p ih =>
      obtain ⟨index, word⟩ := p
      have hword : word = words index := hsound (index, word) (by simp)
      have hrest := ih fun p hp => hsound p (List.mem_append_left _ hp)
      rw [described_concat]
      by_cases hi : i = index
      · subst hi
        subst hword
        by_cases h0 : words i = 0 <;> simp [h0, hrest]
      · have hne : ¬ (i, words i) = (index, word) := fun h => hi (congrArg Prod.fst h)
        have hkeep : (if word = 0 then described ws else withWord (described ws) index word) i =
            described ws i := by
          split
          · rfl
          · exact withWord_of_ne _ _ hi
        simp [hkeep, hrest, hne]
  funext i
  by_cases h0 : words i = 0
  · simp [hlisted, h0]
  · simp [hlisted, hcomplete i h0]

theorem nodes_ofWords_concat (ws : List (Nat × UInt32)) (index : Nat) (word : UInt32) :
    (ofWords (ws ++ [(index, word)])).nodes =
      if word = 0 then (ofWords ws).nodes
      else (ofWords ws).nodes.insert index (leafHash word) := by
  simp [ofWords]

/-- The leaves of some words. -/
theorem holds_ofWords (ws : List (Nat × UInt32)) : (ofWords ws).Holds (described ws) 0 := by
  induction ws using List.reverseRecOn with
  | nil => exact ⟨fun i => by simp [node, ofWords]; rfl, rfl, fun i hi => by simp [ofWords] at hi⟩
  | append_singleton ws p ih =>
    obtain ⟨index, word⟩ := p
    by_cases h0 : word = 0
    · have hsame : ofWords (ws ++ [(index, word)]) = ofWords ws := by simp [ofWords, h0]
      rw [hsame, described_concat, if_pos h0]
      exact ih
    · refine ⟨fun i => ?_, rfl, fun i hi => ?_⟩
      · have hi : (ofWords ws).node i = leafHash (described ws i) := ih.node_eq i
        rw [node, nodes_ofWords_concat, described_concat, if_neg h0, if_neg h0,
          Std.TreeMap.getD_insert]
        simp only [Nat.compare_eq_eq, withWord, fullNode, eq_comm (a := index)]
        split
        · rfl
        · exact hi
      · refine ⟨i, rfl, ?_⟩
        rw [nodes_ofWords_concat, if_neg h0, Std.TreeMap.mem_insert] at hi
        rw [described_concat, if_neg h0, withWord]
        split
        · exact h0
        · rename_i hne
          obtain ⟨j, rfl, hj⟩ :=
            ih.occupied i (hi.resolve_left fun hc => hne (Nat.compare_eq_eq.mp hc).symm)
          exact hj

/-- The digest of the parent at an index of the level above. -/
def parentNode (l : MerkleLevel) (i : Nat) : Digest :=
  Digest.hashPair (l.node (2 * i)) (l.node (2 * i + 1))

/-- Adds the parent of a stored node to the nodes of the level above. -/
def addParent (l : MerkleLevel) (nodes : Std.TreeMap Nat Digest) (index : Nat) :
    Std.TreeMap Nat Digest :=
  if nodes.contains (index / 2) then nodes else nodes.insert (index / 2) (l.parentNode (index / 2))

theorem nodes_above (l : MerkleLevel) : l.above.nodes = l.nodes.keys.foldl l.addParent ∅ :=
  Std.TreeMap.foldl_eq_foldl_keys

/-- Adding parents stores the parents, each with its digest. -/
theorem getElem?_foldl_addParent (l : MerkleLevel) (keys : List Nat) (i : Nat) :
    (keys.foldl l.addParent ∅)[i]? =
      if 2 * i ∈ keys ∨ 2 * i + 1 ∈ keys then some (l.parentNode i) else none := by
  induction keys using List.reverseRecOn with
  | nil => simp
  | append_singleton keys k ih =>
    have hk : k / 2 = i ↔ 2 * i = k ∨ 2 * i + 1 = k := by omega
    simp only [List.foldl_append, List.foldl_cons, List.foldl_nil, List.mem_append,
      List.mem_singleton]
    generalize keys.foldl l.addParent ∅ = nodes at ih ⊢
    rw [addParent]
    split
    · rename_i hc
      rw [ih]
      by_cases hki : k / 2 = i
      · -- The parent was there already, so another of its children was met before.
        rw [hki, ← Std.TreeMap.mem_iff_contains, Std.TreeMap.mem_iff_isSome_getElem?, ih] at hc
        have h : 2 * i ∈ keys ∨ 2 * i + 1 ∈ keys := by
          by_contra hno
          simp [hno] at hc
        rw [if_pos h, if_pos (h.imp .inl .inl)]
      · rw [hk, not_or] at hki
        simp [hki.1, hki.2]
    · rw [Std.TreeMap.getElem?_insert]
      simp only [Nat.compare_eq_eq]
      split
      · rename_i hki
        have := hk.mp hki
        rw [hki, if_pos (by tauto)]
      · rename_i hki
        rw [hk, not_or] at hki
        simp [ih, hki.1, hki.2]

theorem getElem?_nodes_above (l : MerkleLevel) (i : Nat) : l.above.nodes[i]? =
    if 2 * i ∈ l.nodes ∨ 2 * i + 1 ∈ l.nodes then some (l.parentNode i) else none := by
  rw [nodes_above, getElem?_foldl_addParent]
  simp only [Std.TreeMap.mem_keys]

/-- The level above holds the nodes above. -/
theorem Holds.above {l : MerkleLevel} {words : Nat → UInt32} {height : Nat}
    (hl : l.Holds words height) : l.above.Holds words (height + 1) where
  node_eq i := by
    rw [fullNode, ← hl.node_eq, ← hl.node_eq, node, Std.TreeMap.getD_eq_getD_getElem?,
      getElem?_nodes_above]
    split
    · rfl
    · rename_i h
      rw [not_or] at h
      rw [node_of_not_mem h.1, node_of_not_mem h.2]
      rfl
  zero_eq := by
    rw [zeroNode_succ, ← hl.zero_eq]
    rfl
  occupied i hi := by
    rw [Std.TreeMap.mem_iff_isSome_getElem?, getElem?_nodes_above] at hi
    split at hi
    · rename_i h
      exact (occupied_succ words height i).mpr (h.imp (hl.occupied _) (hl.occupied _))
    · simp at hi

/-- The levels from a height up hold the full tree over some words. -/
def AllHold (words : Nat → UInt32) : (height : Nat) → List MerkleLevel → Prop
  | _, [] => True
  | height, l :: levels => l.Holds words height ∧ AllHold words (height + 1) levels

theorem length_tower (depth : Nat) (l : MerkleLevel) : (tower depth l).length = depth + 1 := by
  induction depth generalizing l with
  | zero => rfl
  | succ depth ih => simp only [tower, List.length_cons, ih]

theorem Holds.tower {l : MerkleLevel} {words : Nat → UInt32} {height : Nat}
    (hl : l.Holds words height) (depth : Nat) : AllHold words height (tower depth l) := by
  induction depth generalizing l height with
  | zero => exact ⟨hl, trivial⟩
  | succ depth ih => exact ⟨hl, ih hl.above⟩

end MerkleLevel

/-! ### Trees -/

namespace MerkleTree

open MerkleLevel

/-- A sparse tree of some depth that stores the full tree over some words. -/
structure Holds (t : MerkleTree) (words : Nat → UInt32) (depth : Nat) : Prop where
  length_levels : t.levels.length = depth + 1
  levels : AllHold words 0 t.levels

theorem rootOf_eq {words : Nat → UInt32} {height : Nat} {levels : List MerkleLevel}
    (h : AllHold words height levels) (hne : levels ≠ []) :
    rootOf levels = fullNode words (height + (levels.length - 1)) 0 := by
  induction levels generalizing height with
  | nil => exact absurd rfl hne
  | cons l levels ih =>
    cases levels with
    | nil => exact h.1.node_eq 0
    | cons above levels =>
      rw [rootOf, ih h.2 (by simp)]
      · congr 1
        simp only [List.length_cons]
        omega
      · simp

theorem siblingsFrom_eq {words : Nat → UInt32} {height : Nat} {levels : List MerkleLevel}
    (h : AllHold words height levels) (index : Nat) :
    siblingsFrom levels index = fullPath words (levels.length - 1) height index := by
  induction levels generalizing height index with
  | nil => rfl
  | cons l levels ih =>
    cases levels with
    | nil => rfl
    | cons above levels =>
      rw [siblingsFrom, ih h.2, h.1.node_eq]
      simp only [List.length_cons, Nat.add_sub_cancel, fullPath]

theorem allHold_updateFrom {words : Nat → UInt32} {height : Nat} {levels : List MerkleLevel}
    (h : AllHold words height levels) (index : Nat) (word : UInt32) :
    AllHold (withWord words index word) height (updateFrom levels (index >>> height)
      (fullNode (withWord words index word) height (index >>> height))) := by
  induction levels generalizing height with
  | nil => trivial
  | cons l levels ih =>
    refine ⟨h.1.set index word, ?_⟩
    have hs := fullNode_withWord_of_ne words index word (Ne.symm (sibling_ne (index >>> height)))
    rw [h.1.node_eq, ← hs, parentHash_fullNode]
    exact ih h.2

theorem length_updateFrom (levels : List MerkleLevel) (index : Nat) (d : Digest) :
    (updateFrom levels index d).length = levels.length := by
  induction levels generalizing index d with
  | nil => rfl
  | cons l levels ih => simp only [updateFrom, List.length_cons, ih]

namespace Holds

variable {t : MerkleTree} {words : Nat → UInt32} {depth : Nat}

theorem root_eq (h : t.Holds words depth) : t.root = fullNode words depth 0 := by
  have hne : t.levels ≠ [] := by
    intro hnil
    simpa [hnil] using h.length_levels
  rw [root, rootOf_eq h.levels hne, h.length_levels, Nat.zero_add, Nat.add_sub_cancel]

theorem path_eq (h : t.Holds words depth) (index : Nat) :
    t.path index = ⟨fullPath words depth 0 index⟩ := by
  rw [path, siblingsFrom_eq h.levels, h.length_levels, Nat.add_sub_cancel]

/-- An update changes one word. -/
theorem update (h : t.Holds words depth) (index : Nat) (word : UInt32) :
    (t.update index word).Holds (withWord words index word) depth where
  length_levels := (length_updateFrom _ _ _).trans h.length_levels
  levels := by
    have hleaf : leafHash word = fullNode (withWord words index word) 0 index := by
      rw [fullNode, withWord_self]
    rw [MerkleTree.update, hleaf]
    exact allHold_updateFrom h.levels index word

end Holds

/-- The tree over some words holds them. -/
theorem holds_ofWords (depth : Nat) (ws : List (Nat × UInt32)) :
    (ofWords depth ws).Holds (described ws) depth :=
  ⟨length_tower depth _, (MerkleLevel.holds_ofWords ws).tower depth⟩

/-- The empty tree holds zeros. -/
theorem holds_empty (depth : Nat) : (empty depth).Holds (fun _ => 0) depth := by
  have hlevels (n height : Nat) :
      ((zerosFrom n (zeroNode height)).map fun zero => ({ zero } : MerkleLevel)).length = n + 1 ∧
      AllHold (fun _ => 0) height
        ((zerosFrom n (zeroNode height)).map fun zero => ({ zero } : MerkleLevel)) := by
    have hone (height : Nat) :
        ({ zero := zeroNode height } : MerkleLevel).Holds (fun _ => 0) height :=
      ⟨fun i => by simp [node, fullNode_zeros], rfl, fun i hi => by simp at hi⟩
    induction n generalizing height with
    | zero => exact ⟨rfl, hone height, trivial⟩
    | succ n ih =>
      obtain ⟨hl, hh⟩ := ih (height + 1)
      rw [zeroNode_succ] at hl hh
      exact ⟨by simp only [zerosFrom, List.map_cons, List.length_cons, hl], hone height, hh⟩
  exact ⟨(hlevels depth 0).1, (hlevels depth 0).2⟩

end MerkleTree

end ReplayVM
