import ReplayVM.Proofs.MerkleTrees

/-!
# Paths against full trees

A path is checked from the leaf up, and can be compared with the full tree from the root down: as
long as the byte strings hashed on both sides do not collide, a path that reaches the root has the
siblings of the full tree and starts at the word that is there. Such a path also predicts the root
after a change of that word. Conversely the path of a full tree is accepted.

## Main definitions

* `MerklePath.messages`: the byte strings that are hashed when a path is checked.

## Main results

* `MerklePath.eq_of_verifyWord`: an accepted path is the path of the word that is there.
* `MerklePath.rootForWord_fullPath`: the path of a full tree predicts every change of its word.
* `MerklePath.verifyWord_fullPath`: the path of a full tree is accepted.
-/

namespace ReplayVM

open Merkle

namespace MerklePath

/-! ### Messages -/

/-- The byte string that is hashed for the parent of a node and its sibling. -/
def parentBytes (index : Nat) (node sibling : Digest) : Bytes :=
  if index % 2 = 0 then Digest.pairBytes node sibling else Digest.pairBytes sibling node

theorem hash_parentBytes (index : Nat) (node sibling : Digest) :
    Digest.hash (parentBytes index node sibling) = parentHash index node sibling := by
  unfold parentBytes parentHash
  split <;> rfl

theorem parentBytes_inj {index : Nat} {a b c d : Digest}
    (h : parentBytes index a b = parentBytes index c d) : a = c ∧ b = d := by
  unfold parentBytes at h
  split at h
  · exact Digest.pairBytes_inj.mp h
  · exact (Digest.pairBytes_inj.mp h).symm

/-- The bytes hashed for a node of the full tree are those of either child and its sibling. -/
theorem fullMessage_succ (words : Nat → UInt32) (height index : Nat) :
    fullMessage words (height + 1) (index / 2) =
      parentBytes index (fullNode words height index) (fullNode words height (sibling index)) := by
  unfold parentBytes sibling
  split
  · rw [fullMessage, show 2 * (index / 2) = index by omega]
  · rw [fullMessage, show 2 * (index / 2) = index - 1 by omega,
      show index - 1 + 1 = index by omega]

/-- The byte strings that are hashed on the way up from a node past some siblings. -/
def climbMessages : List Digest → (index : Nat) → (node : Digest) → List Bytes
  | [], _, _ => []
  | s :: siblings, index, node =>
    parentBytes index node s :: climbMessages siblings (index / 2) (parentHash index node s)

/-- The byte strings that are hashed when a path is checked for a word. -/
def messages (path : MerklePath) (index : Nat) (word : UInt32) : List Bytes :=
  Bytes.ofWord word :: climbMessages path.siblings index (leafHash word)

/-! ### Completeness -/

/-- The path of a full tree leads from each node to the root. -/
theorem climb_fullPath (words : Nat → UInt32) (count height index : Nat) :
    climb (fullPath words count height index) index (fullNode words height index) =
      fullNode words (height + count) (index >>> count) := by
  induction count generalizing height index with
  | zero => rfl
  | succ count ih =>
    rw [fullPath, climb, parentHash_fullNode, ih, Nat.shiftRight_succ_inside,
      show height + 1 + count = height + (count + 1) by omega]

/-- What is hashed on the way up a full tree are its nodes above the first one. -/
theorem climbMessages_fullPath (words : Nat → UInt32) (count height index : Nat) :
    climbMessages (fullPath words count height index) index (fullNode words height index) =
      (List.range' (height + 1) count).map fun k =>
        fullMessage words k (index >>> (k - height)) := by
  induction count generalizing height index with
  | zero => rfl
  | succ count ih =>
    rw [fullPath, climbMessages, parentHash_fullNode, ih, List.range'_succ, List.map_cons,
      ← fullMessage_succ, Nat.add_sub_cancel_left]
    refine congrArg _ (List.map_congr_left fun k hk => ?_)
    have hle : height + 1 + 1 ≤ k := (List.mem_range'_1.mp hk).1
    rw [show k - height = k - (height + 1) + 1 by omega, Nat.shiftRight_succ_inside]

/-- What is hashed for a path of a full tree are the nodes of the tree above its word. -/
theorem messages_fullPath (words : Nat → UInt32) (depth index : Nat) :
    messages ⟨fullPath words depth 0 index⟩ index (words index) =
      (List.range (depth + 1)).map fun k => fullMessage words k (index >>> k) := by
  have hclimb := climbMessages_fullPath words depth 0 index
  rw [fullNode] at hclimb
  rw [messages, hclimb, List.range_eq_range', List.range'_succ, List.map_cons]
  rfl

/-- What is hashed for a path of a full tree is hashed in the tree. -/
theorem treeMessage_of_mem_messages {words : Nat → UInt32} {depth index : Nat}
    (hi : index < 1 <<< depth) {x : Bytes}
    (h : x ∈ messages ⟨fullPath words depth 0 index⟩ index (words index)) :
    TreeMessage words depth x := by
  rw [messages_fullPath] at h
  obtain ⟨height, hheight, rfl⟩ := List.mem_map.mp h
  have hle : height ≤ depth := Nat.le_of_lt_succ (List.mem_range.mp hheight)
  exact ⟨height, _, hle, shiftRight_lt hle hi, rfl⟩

theorem shiftRight_eq_zero {index depth : Nat} (h : index < 1 <<< depth) : index >>> depth = 0 := by
  rw [Nat.one_shiftLeft] at h
  rw [Nat.shiftRight_eq_div_pow, Nat.div_eq_of_lt h]

/-- The path of a full tree predicts every change of its word. -/
theorem rootForWord_fullPath (words : Nat → UInt32) {depth index : Nat}
    (hi : index < 1 <<< depth) (word : UInt32) :
    rootForWord ⟨fullPath words depth 0 index⟩ index word =
      fullNode (withWord words index word) depth 0 := by
  have hpath := fullPath_withWord words index word depth 0
  have hleaf : leafHash word = fullNode (withWord words index word) 0 index := by
    rw [fullNode, withWord_self]
  rw [Nat.shiftRight_zero] at hpath
  rw [rootForWord, rootFromLeaf, ← hpath, hleaf, climb_fullPath, shiftRight_eq_zero hi,
    Nat.zero_add]

/-- The path of a full tree is accepted for the word that is there. -/
theorem verifyWord_fullPath (words : Nat → UInt32) {depth index : Nat}
    (hi : index < 1 <<< depth) :
    verifyWord ⟨fullPath words depth 0 index⟩ (fullNode words depth 0) depth index
      (words index) = true := by
  have hsame : withWord words index (words index) = words := by
    funext i
    unfold withWord
    split
    · rename_i h
      rw [h]
    · rfl
  simp [verifyWord, length_fullPath, hi, rootForWord_fullPath words hi, hsame]

/-! ### Soundness -/

/-- A path that reaches the root of a full tree starts at a node of that tree and has the siblings
of that tree, unless two of the byte strings hashed on both sides collide. -/
theorem eq_of_climb_eq {hashed : Bytes → Prop} (hfree : CollisionFree hashed)
    {words : Nat → UInt32} {siblings : List Digest} {height index : Nat} {d : Digest}
    (hpath : ∀ x ∈ climbMessages siblings index d, hashed x)
    (htree : ∀ x, TreeMessage words (height + siblings.length) x → hashed x)
    (hi : index < 1 <<< siblings.length)
    (h : climb siblings index d = fullNode words (height + siblings.length) 0) :
    d = fullNode words height index ∧ siblings = fullPath words siblings.length height index := by
  induction siblings generalizing height index d with
  | nil =>
    have hzero : index = 0 := by simpa using hi
    rw [hzero]
    exact ⟨h, rfl⟩
  | cons s siblings ih =>
    rw [List.length_cons] at hi h htree ⊢
    have hhalf : index / 2 < 1 <<< siblings.length := by
      rw [Nat.one_shiftLeft, Nat.pow_succ] at hi
      rw [Nat.one_shiftLeft]
      omega
    rw [show height + (siblings.length + 1) = height + 1 + siblings.length by omega] at h htree
    obtain ⟨hparent, hsiblings⟩ :=
      ih (fun x hx => hpath x (List.mem_cons_of_mem _ hx)) htree hhalf h
    -- The parent is one hash on both sides, so its two children agree.
    have hbytes : parentBytes index d s = fullMessage words (height + 1) (index / 2) := by
      refine hfree _ _ (hpath _ List.mem_cons_self)
        (htree _ ⟨height + 1, index / 2, ?_, ?_, rfl⟩) ?_
      · omega
      · rwa [show height + 1 + siblings.length - (height + 1) = siblings.length by omega]
      · rw [hash_parentBytes, hash_fullMessage, hparent]
    rw [fullMessage_succ] at hbytes
    obtain ⟨hd, hs⟩ := parentBytes_inj hbytes
    exact ⟨hd, by rw [fullPath, ← hs, ← hsiblings]⟩

/-- An accepted path is the path of the word that is there, unless two of the byte strings hashed
for the path and in the tree collide. -/
theorem eq_of_verifyWord {hashed : Bytes → Prop} (hfree : CollisionFree hashed)
    {words : Nat → UInt32} {path : MerklePath} {depth index : Nat} {word : UInt32}
    (hpath : ∀ x ∈ path.messages index word, hashed x)
    (htree : ∀ x, TreeMessage words depth x → hashed x)
    (h : path.verifyWord (fullNode words depth 0) depth index word = true) :
    index < 1 <<< depth ∧ word = words index ∧ path = ⟨fullPath words depth 0 index⟩ := by
  simp only [verifyWord, Bool.and_eq_true, decide_eq_true_eq] at h
  obtain ⟨⟨hlen, hi⟩, hroot⟩ := h
  subst hlen
  rw [← Nat.zero_add path.siblings.length] at hroot htree
  obtain ⟨hleaf, hsiblings⟩ := eq_of_climb_eq hfree
    (fun x hx => hpath x (List.mem_cons_of_mem _ hx)) htree hi hroot
  refine ⟨hi, ?_, ?_⟩
  · refine Bytes.ofWord_inj.mp (hfree _ _ (hpath _ List.mem_cons_self) (htree _ ?_) hleaf)
    exact ⟨0, index, Nat.zero_le _, by simpa using hi, rfl⟩
  · rcases path with ⟨siblings⟩
    exact congrArg MerklePath.mk hsiblings

end MerklePath

end ReplayVM
