import ReplayVM.Proofs.HashEvaluation
import ReplayVM.Proofs.SnapshotLaws

/-!
# What paths of sparse trees show

A tree is built empty or from listed words and changes by updates; its history says which word is
at each index. The path of an index is accepted for the word that is there and predicts the root
after the next update. No other path, of any length and for any index, shows another word: whoever
finds one has found two byte strings with one hash.

## Main definitions

* `MerkleTree.Reached`: the trees that can be built, with the words that their histories leave.
* `MerkleTree.Authenticates`: what paths say about a tree and some words.

## Main results

* `MerkleTree.Reached.holds`: a tree that was built stores the words that its history leaves.
* `MerkleTree.authenticates_of_reached`: its paths show these words and no others.
-/

namespace ReplayVM

open Merkle

/-! ### Histories of trees -/

/-- The word that a list of words has at an index, zero where it has none. -/
def listedWord (ws : List (Nat × UInt32)) (index : Nat) : UInt32 := (ws.lookup index).getD 0

/-- A list of words at distinct indices describes the words that it lists. -/
theorem described_eq_listedWord {ws : List (Nat × UInt32)} (hnodup : (ws.map Prod.fst).Nodup) :
    MerkleLevel.described ws = listedWord ws := by
  refine MerkleLevel.described_eq (fun p hp => ?_) fun i hi => ?_
  · rw [listedWord, (lookup_eq_some_iff_mem hnodup).mpr hp, Option.getD_some]
  · cases hlookup : ws.lookup i with
    | none => simp [listedWord, hlookup] at hi
    | some word =>
      rw [listedWord, hlookup, Option.getD_some]
      exact (lookup_eq_some_iff_mem hnodup).mp hlookup

namespace MerkleTree

/-- The trees of a depth that can be built, with the words that their histories leave. -/
inductive Reached (depth : Nat) : MerkleTree → (Nat → UInt32) → Prop where
  | empty : Reached depth (empty depth) fun _ => 0
  | ofWords {ws : List (Nat × UInt32)} (hnodup : (ws.map Prod.fst).Nodup)
      (hbelow : ∀ p ∈ ws, p.1 < 1 <<< depth) : Reached depth (ofWords depth ws) (listedWord ws)
  | update {t : MerkleTree} {words : Nat → UInt32} (h : Reached depth t words) {index : Nat}
      (hindex : index < 1 <<< depth) (word : UInt32) :
      Reached depth (t.update index word) (withWord words index word)

variable {depth : Nat} {t : MerkleTree} {words : Nat → UInt32}

/-- A tree that was built stores the full tree over the words that its history leaves. -/
theorem Reached.holds (h : Reached depth t words) : t.Holds words depth := by
  induction h with
  | empty => exact holds_empty depth
  | ofWords hnodup _ => exact described_eq_listedWord hnodup ▸ holds_ofWords depth _
  | update _ _ word ih => exact ih.update _ word

/-! ### Paths -/

/-- What paths say about a tree and some words: the path of an index is accepted for the word there
and predicts the root after an update; a path that is accepted is that path, unless two of the byte
strings hashed for it and in the tree collide. -/
structure Authenticates (t : MerkleTree) (depth : Nat) (words : Nat → UInt32) : Prop where
  accepts : ∀ i < 1 <<< depth, (t.path i).verifyWord t.root depth i (words i) = true
  predicts : ∀ i < 1 <<< depth, ∀ word, (t.path i).rootForWord i word = (t.update i word).root
  binds : ∀ (path : MerklePath) (index : Nat) (word : UInt32),
    CollisionFree (fun x => x ∈ path.messages index word ∨ TreeMessage words depth x) →
    path.verifyWord t.root depth index word = true →
      index < 1 <<< depth ∧ word = words index ∧ path = t.path index

theorem Holds.authenticates (h : t.Holds words depth) : t.Authenticates depth words where
  accepts i hi := by
    rw [h.path_eq, h.root_eq]
    exact MerklePath.verifyWord_fullPath words hi
  predicts i hi word := by
    rw [h.path_eq, (h.update i word).root_eq]
    exact MerklePath.rootForWord_fullPath words hi word
  binds path index word hfree haccepted := by
    rw [h.root_eq] at haccepted
    rw [h.path_eq]
    exact MerklePath.eq_of_verifyWord hfree (fun _ => .inl) (fun _ => .inr) haccepted

/-- **Paths show the current words.** In a tree that was built by updates from the empty tree, or
from words at distinct indices, the path of each index is accepted for the word that is there and
predicts every update. A path that is accepted for any word at any index shows the word that is
there, unless two of the byte strings that are hashed collide. -/
theorem authenticates_of_reached (h : Reached depth t words) : t.Authenticates depth words :=
  h.holds.authenticates

end MerkleTree

namespace PairTree

/-- A tree over two words, one from a list and one from an update. -/
def tree : MerkleTree := (MerkleTree.ofWords 1 [(0, 1)]).update 1 2

/-- Its words. -/
def words : Nat → UInt32 := withWord (listedWord [(0, 1)]) 1 2

theorem reached_tree : MerkleTree.Reached 1 tree words :=
  .update (.ofWords (by decide) (by decide)) (by decide) 2

/-- What is hashed in the tree and for another word at the second index. -/
def messages : List Bytes :=
  [1, 2, 3].map Bytes.ofWord ++ [2, 3].map fun word =>
    Digest.pairBytes (Digest.evaluate (Bytes.ofWord 1)) (Digest.evaluate (Bytes.ofWord word))

theorem collisionFree_messages : CollisionFree fun x => x ∈ messages :=
  .of_nodup (by decide +kernel)

theorem leafHash_eq_evaluate (word : UInt32) :
    leafHash word = Digest.evaluate (Bytes.ofWord word) :=
  congrFun Digest.hash_eq_evaluate _

theorem mem_messages_of_path {x : Bytes} (h : x ∈ (tree.path 1).messages 1 3) : x ∈ messages := by
  have hpath : (tree.path 1).siblings = [leafHash 1] :=
    congrArg MerklePath.siblings (reached_tree.holds.path_eq 1)
  have hparent : MerklePath.parentBytes 1 (leafHash 3) (leafHash 1) =
      Digest.pairBytes (leafHash 1) (leafHash 3) := rfl
  rw [MerklePath.messages, hpath, MerklePath.climbMessages, MerklePath.climbMessages, hparent,
    leafHash_eq_evaluate, leafHash_eq_evaluate] at h
  simp only [List.mem_cons, List.not_mem_nil, or_false] at h
  rcases h with rfl | rfl <;> simp [messages]

theorem mem_messages_of_tree {x : Bytes} (h : TreeMessage words 1 x) : x ∈ messages := by
  obtain ⟨height, index, hheight, hindex, rfl⟩ := h
  have hroot : fullMessage words 1 0 = Digest.pairBytes (leafHash 1) (leafHash 2) := rfl
  obtain rfl | rfl : height = 0 ∨ height = 1 := by omega
  · have hlt : index < 2 := hindex
    obtain rfl | rfl : index = 0 ∨ index = 1 := by omega
    · exact List.mem_cons_self
    · exact List.mem_cons_of_mem _ List.mem_cons_self
  · obtain rfl : index = 0 := Nat.lt_one_iff.mp hindex
    rw [hroot, leafHash_eq_evaluate, leafHash_eq_evaluate]
    simp [messages]

end PairTree

open PairTree in
/-- The path of a word in a tree over two words is not accepted for another word. -/
theorem MerkleTree.authenticates_of_reached_pairTree :
    tree.Authenticates 1 words ∧ (tree.path 1).verifyWord tree.root 1 1 2 = true ∧
    (tree.path 1).rootForWord 1 3 = (tree.update 1 3).root ∧
    (tree.path 1).verifyWord tree.root 1 1 3 = false := by
  have h : tree.Authenticates 1 words := authenticates_of_reached reached_tree
  have hfree : CollisionFree fun x => x ∈ (tree.path 1).messages 1 3 ∨ TreeMessage words 1 x :=
    collisionFree_messages.mono fun x hx => hx.elim mem_messages_of_path mem_messages_of_tree
  refine ⟨h, h.accepts 1 (by decide), h.predicts 1 (by decide) 3, ?_⟩
  refine Bool.eq_false_iff.mpr fun hv => ?_
  exact absurd (h.binds _ _ _ hfree hv).2.1 (by decide)

end ReplayVM
