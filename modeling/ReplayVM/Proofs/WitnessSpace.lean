import ReplayVM.Proofs.MemoryConstruction
import ReplayVM.Witness.Record

/-!
# The space that witnesses take

The pages of a memory have different numbers and lie in the address space, and its tree stores
nodes above words of the address space only. So the snapshot of a segment takes a bounded amount of
space, and with it the witness of a segment with boundedly many answers of the host.

## Main results

* `MerkleTree.Holds.storedNodes_le`: the number of stored nodes of a tree.
* `Memory.WellFormed.residentBytes_le`: the space of a memory.
* `Segment.exists_witnessEstimate`: the space of a witness can be counted.
-/

namespace ReplayVM

/-! ### Trees -/

open Merkle MerkleLevel

/-- A level stores no more nodes than the tree over the address space has at its height. -/
theorem MerkleLevel.Holds.size_le {l : MerkleLevel} {words : Nat → UInt32} {depth height : Nat}
    (hl : l.Holds words height) (hd : height ≤ depth)
    (hwords : ∀ i, 1 <<< depth ≤ i → words i = 0) : l.nodes.size ≤ 1 <<< depth := by
  refine size_le_of_keys_lt id Function.injective_id fun i hi => ?_
  refine Nat.lt_of_lt_of_le (lt_of_occupied hd hwords (hl.occupied i hi)) ?_
  rw [Nat.one_shiftLeft, Nat.one_shiftLeft]
  exact Nat.pow_le_pow_right (by omega) (Nat.sub_le _ _)

/-- Levels store no more nodes than the tree over the address space has at their heights. -/
theorem MerkleLevel.AllHold.foldl_size_le {levels : List MerkleLevel} {words : Nat → UInt32}
    {depth height : Nat} (h : AllHold words height levels)
    (hwords : ∀ i, 1 <<< depth ≤ i → words i = 0) (hbound : height + levels.length ≤ depth + 1)
    (n : Nat) :
    levels.foldl (fun n l => n + l.nodes.size) n ≤ n + levels.length * 1 <<< depth := by
  induction levels generalizing height n with
  | nil => simp
  | cons l levels ih =>
    rw [List.length_cons] at hbound
    have hsize := h.1.size_le (by omega) hwords
    have hrest := ih h.2 (by omega) (n + l.nodes.size)
    rw [List.foldl_cons, List.length_cons, Nat.succ_mul]
    omega

/-- A tree stores no more nodes than its levels could hold. -/
theorem MerkleTree.Holds.storedNodes_le {t : MerkleTree} {words : Nat → UInt32} {depth : Nat}
    (h : t.Holds words depth) (hwords : ∀ i, 1 <<< depth ≤ i → words i = 0) :
    t.storedNodes ≤ (depth + 1) * 1 <<< depth := by
  have hnodes := h.levels.foldl_size_le hwords (by rw [h.length_levels]; omega) 0
  rwa [h.length_levels, Nat.zero_add] at hnodes

/-! ### Memories -/

namespace Memory

variable {m : Memory}

/-- The pages of a memory take no more space than the address space. -/
theorem Fits.pages_le (h : m.Fits) :
    m.pages.size * m.pageSize.toNat ≤ 1 <<< m.memoryBits.toNat := by
  obtain ⟨count, hcount⟩ := h.pageSize_dvd
  have hpos := h.pageSize_words.2
  rw [hcount, Nat.mul_comm]
  refine Nat.mul_le_mul_left _ (size_le_of_keys_lt UInt32.toNat (fun _ _ => UInt32.toNat_inj.mp) ?_)
  intro number hnumber
  have hinside := h.page_inside number _ (Std.TreeMap.getElem?_eq_some_getElem hnumber)
  rw [hcount, Nat.mul_comm m.pageSize.toNat] at hinside
  exact Nat.le_of_mul_le_mul_right hinside hpos

/-- The space that a memory takes is bounded. -/
theorem WellFormed.residentBytes_le (h : m.WellFormed) : m.residentBytes ≤ 1 <<< 40 := by
  have hpages := h.toFits.pages_le
  have hnodes := h.tree.storedNodes_le fun i hi => wordAt_of_le hi
  have hsize := h.toFits.size_le
  have hwords : 1 <<< treeDepth m.memoryBits ≤ 1 <<< 28 := by
    rw [h.toFits.size_eq] at hsize
    omega
  have hdepth : treeDepth m.memoryBits + 1 ≤ 29 := by
    have := h.memoryBits_le
    rw [h.treeDepth_eq]
    omega
  have hmul := Nat.le_trans hnodes (Nat.mul_le_mul hdepth hwords)
  unfold residentBytes
  omega

end Memory

/-! ### Witnesses -/

namespace Segment

variable {s : Segment}

/-- The estimate is the space of the rows, twice, and of the snapshot. -/
theorem witnessEstimate_eq_some_iff {estimate : UInt64} : s.witnessEstimate = some estimate ↔
    2 ≤ s.params.memoryBits ∧ estimate.toNat =
      2 * (s.instructionCount.toNat + 1) * Row.sizeEstimate s.params.merkleDepth +
        s.trace.residentBytes := by
  simp only [witnessEstimate, Params.merkleDepth?, Option.bind_eq_bind, Option.bind_eq_some_iff,
    Option.ite_none_right_eq_some, Option.some_inj, long?_eq_some_iff]
  constructor
  · rintro ⟨depth, ⟨hbits, rfl⟩, h⟩
    exact ⟨hbits, h⟩
  · rintro ⟨hbits, h⟩
    exact ⟨_, ⟨hbits, rfl⟩, h⟩

/-- A segment whose witness is estimated to take no more than so many bytes. -/
def WitnessWithin (s : Segment) (bytes : Nat) : Prop :=
  ∃ estimate, s.witnessEstimate = some estimate ∧ estimate.toNat ≤ bytes

/-- The space that a witness takes can be counted, as long as the parameters are valid and the
answers of the host fit into an address space of bytes. -/
theorem exists_witnessEstimate (hm : s.trace.startMemory.WellFormed)
    (hvalid : s.params.validate = .ok ()) (hreplies : s.trace.hostReplies.length < 1 <<< 60) :
    ∃ estimate, s.witnessEstimate = some estimate := by
  obtain ⟨⟨-, hbits⟩, -⟩ := Params.validate_eq_ok_iff.mp hvalid
  have hmemory := hm.residentBytes_le
  have hcount : s.instructionCount.toNat < 4294967296 := s.instructionCount.toNat_lt
  have hdepth := Params.merkleDepth_eq (Params.two_le_memoryBits hvalid)
  have hrow : Row.sizeEstimate s.params.merkleDepth ≤ 2088 := by
    rw [hdepth]
    unfold Row.sizeEstimate Row.stateSize
    omega
  have hrows : (s.instructionCount.toNat + 1) * Row.sizeEstimate s.params.merkleDepth ≤
      4294967296 * 2088 := Nat.mul_le_mul hcount hrow
  have hanswers : s.trace.hostReplies.length < 1152921504606846976 := hreplies
  rw [witnessEstimate, Params.merkleDepth?_of_validate hvalid]
  refine exists_long?_iff.mpr ?_
  unfold Trace.residentBytes
  rw [Nat.mul_assoc]
  change _ < 18446744073709551616
  omega

/-- All the space there is holds what can be counted. -/
theorem WitnessWithin.of_exists (h : ∃ estimate, s.witnessEstimate = some estimate) :
    s.WitnessWithin (UInt64.size - 1) := by
  obtain ⟨estimate, hestimate⟩ := h
  exact ⟨estimate, hestimate, Nat.le_sub_one_of_lt estimate.toNat_lt_size⟩

end Segment

end ReplayVM
