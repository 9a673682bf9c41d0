import Mathlib.Algebra.Ring.Nat
import Mathlib.Data.List.Chain
import Mathlib.Tactic.Common
import ReplayVM.Proofs.Verification
import ReplayVM.Receipt.Reduce

/-!
# Composed receipts

A succinct receipt is the result of a tree of joins over receipts of segments. Lifting checks each
leaf completely and joining checks that two stretches of segments meet; together these checks make
the leaves a chain, of which the receipt states the start, the end and the size. Reducing a list is
one way of choosing the tree.

## Main definitions

* `JoinTree`, `JoinTree.eval`: a tree of joins and the receipt that it makes.
* `SegmentClaim.Continues`: claims about segments that follow each other.
* `SuccinctReceipt.HasRoom`: pairs of receipts whose numbers can be added.
* `SuccinctReceipt.Covers`: a receipt that states what a chain of segments amounts to.

## Main results

* `SuccinctReceipt.covers_lift`, `SuccinctReceipt.Covers.join`: what lifting and joining cover.
* `JoinTree.covers_of_eval`: the receipt of a tree covers its leaves.
* `JoinTree.exists_of_reduce`: reducing a list makes a tree over it.
-/

namespace ReplayVM

/-! ### Chains of segments -/

/-- A claim about the segment that comes after another one. -/
structure SegmentClaim.Continues (left right : SegmentClaim) : Prop where
  config_eq : left.configDigest = right.configDigest
  states_eq : left.endCommitment = right.startCommitment
  continuable : left.exitCode.isContinuable = true
  index_eq : left.index.toNat + 1 = right.index.toNat

/-- Along a chain the segments are numbered without gaps. -/
theorem index_eq_of_isChain {first : SegmentReceipt} {leaves : List SegmentReceipt}
    (h : (first :: leaves).IsChain fun a b => a.claim.Continues b.claim) {i : Nat}
    {leaf : SegmentReceipt} (hi : (first :: leaves)[i]? = some leaf) :
    leaf.claim.index.toNat = first.claim.index.toNat + i := by
  induction leaves generalizing first i with
  | nil =>
    obtain ⟨rfl, rfl⟩ : i = 0 ∧ first = leaf := by
      cases i <;> simp_all
    rfl
  | cons next leaves ih =>
    rw [List.isChain_cons_cons] at h
    cases i with
    | zero =>
      obtain rfl := Option.some.inj hi
      rfl
    | succ i =>
      rw [ih h.2 hi, ← h.1.index_eq]
      omega

/-- The sum of so many words. -/
theorem sum_toNat_le {α : Type} (f : α → UInt32) (as : List α) :
    (as.map fun a => (f a).toNat).sum ≤ as.length * (UInt32.size - 1) := by
  induction as with
  | nil => exact Nat.zero_le _
  | cons a as ih =>
    have hlt : (f a).toNat < UInt32.size := UInt32.toNat_lt_size _
    rw [List.map_cons, List.sum_cons, List.length_cons, Nat.succ_mul]
    omega

/-- One span followed by another counts the segments and the instructions of both. -/
theorem SegmentSpan.append?_eq_some_iff {left right s : SegmentSpan} :
    left.append? right = some s ↔ s.first = left.first ∧
      s.count.toNat = left.count.toNat + right.count.toNat ∧
      s.cycles.toNat = left.cycles.toNat + right.cycles.toNat := by
  simp only [append?, Option.bind_eq_bind, Option.bind_eq_some_iff, word?_eq_some_iff,
    long?_eq_some_iff, Option.pure_def, Option.some_inj]
  constructor
  · rintro ⟨count, hcount, cycles, hcycles, rfl⟩
    exact ⟨rfl, hcount, hcycles⟩
  · rintro ⟨hfirst, hcount, hcycles⟩
    exact ⟨s.count, hcount, s.cycles, hcycles, by rw [← hfirst]⟩

namespace SuccinctReceipt

/-- A receipt that states what a chain of accepted segments amounts to. -/
structure Covers (r : SuccinctReceipt) (leaves : List SegmentReceipt) : Prop where
  ne_nil : leaves ≠ []
  verified : ∀ leaf ∈ leaves, leaf.verify = .ok ()
  config_eq : ∀ leaf ∈ leaves, leaf.claim.configDigest = r.claim.configDigest
  chained : leaves.IsChain fun a b => a.claim.Continues b.claim
  first_eq : ∀ leaf ∈ leaves.head?, leaf.claim.index = r.span.first ∧
    leaf.claim.startCommitment = r.claim.startCommitment
  last_eq : ∀ leaf ∈ leaves.getLast?, leaf.claim.endCommitment = r.claim.endCommitment ∧
    r.claim.exit = ⟨leaf.claim.exitCode, leaf.claim.outputDigest⟩
  count_eq : r.span.count.toNat = leaves.length
  cycles_eq : r.span.cycles.toNat = (leaves.map fun leaf => leaf.claim.instructionCount.toNat).sum

variable {r left right : SuccinctReceipt}

theorem checkChain_eq_ok_iff : left.checkChain right = .ok () ↔
    left.claim.configDigest = right.claim.configDigest ∧
      left.claim.endCommitment = right.claim.startCommitment ∧
      left.claim.exit.exitCode.isContinuable = true ∧
      left.span.stop = right.span.first.toNat := by
  unfold checkChain
  split_ifs <;> simp_all

theorem lift_eq_ok {leaf : SegmentReceipt} (h : leaf.lift = .ok r) :
    leaf.verify = .ok () ∧
      r = make .lift leaf.claim.succinct leaf.liftPreimage.digest 0 leaf.claim.span := by
  simp only [SegmentReceipt.lift, bind_eq_ok_iff, mapError_eq_ok_iff, SegmentReceipt.checkLift,
    pure, Except.pure, Except.ok.injEq] at h
  obtain ⟨_, ⟨_, hverify, -⟩, rfl⟩ := h
  exact ⟨hverify, rfl⟩

/-- A join is one deeper than the deeper one of its receipts. -/
theorem joinDepth?_eq_some_iff {depth : UInt32} : left.joinDepth? right = some depth ↔
    depth.toNat = max left.depth.toNat right.depth.toNat + 1 := by
  have hmax : (max left.depth right.depth).toNat = max left.depth.toNat right.depth.toNat := by
    change (if left.depth ≤ right.depth then right.depth else left.depth).toNat = _
    split <;> rename_i hle <;> rw [UInt32.le_iff_toNat_le] at hle <;> omega
  rw [joinDepth?, word?_eq_some_iff, hmax]

theorem join_eq_ok {joined : SuccinctReceipt} (h : left.join right = .ok joined) :
    left.checkChain right = .ok () ∧ ∃ inputs depth span,
      left.span.append? right.span = some span ∧ left.joinDepth? right = some depth ∧
      joined = make .join (left.claim.compose right.claim) inputs depth span := by
  simp only [SuccinctReceipt.join, bind_eq_ok_iff, mapError_eq_ok_iff, Stop.fit_eq_ok_iff, pure,
    Except.pure, Except.ok.injEq] at h
  obtain ⟨_, _, _, _, _, hchain, span, hspan, depth, hdepth, rfl⟩ := h
  exact ⟨hchain, _, depth, span, hspan, hdepth, rfl⟩

/-- Two receipts whose numbers can be added as words. -/
structure HasRoom (left right : SuccinctReceipt) : Prop where
  count_lt : left.span.count.toNat + right.span.count.toNat < UInt32.size
  cycles_lt : left.span.cycles.toNat + right.span.cycles.toNat < UInt64.size
  depth_lt : max left.depth.toNat right.depth.toNat + 1 < UInt32.size

/-- The numbers of two receipts can be added exactly if a joined receipt has a span and a depth. -/
theorem hasRoom_iff : left.HasRoom right ↔
    (∃ span, left.span.append? right.span = some span) ∧
      ∃ depth, left.joinDepth? right = some depth := by
  constructor
  · rintro ⟨hcount, hcycles, hdepth⟩
    obtain ⟨count, hcount⟩ := exists_word?_iff.mpr hcount
    obtain ⟨cycles, hcycles⟩ := exists_long?_iff.mpr hcycles
    obtain ⟨depth, hdepth⟩ := exists_word?_iff.mpr hdepth
    exact ⟨⟨⟨left.span.first, count, cycles⟩, SegmentSpan.append?_eq_some_iff.mpr
        ⟨rfl, word?_eq_some_iff.mp hcount, long?_eq_some_iff.mp hcycles⟩⟩,
      depth, joinDepth?_eq_some_iff.mpr (word?_eq_some_iff.mp hdepth)⟩
  · rintro ⟨⟨span, hspan⟩, depth, hdepth⟩
    obtain ⟨-, hcount, hcycles⟩ := SegmentSpan.append?_eq_some_iff.mp hspan
    exact ⟨hcount ▸ span.count.toNat_lt_size, hcycles ▸ span.cycles.toNat_lt_size,
      joinDepth?_eq_some_iff.mp hdepth ▸ depth.toNat_lt_size⟩

/-- A lifted receipt covers its segment. -/
theorem covers_lift {leaf : SegmentReceipt} (h : leaf.lift = .ok r) : r.Covers [leaf] := by
  obtain ⟨hverify, rfl⟩ := lift_eq_ok h
  refine ⟨by simp, ?_, ?_, by simp, ?_, ?_, rfl, ?_⟩
  · simpa using hverify
  · simp [make, SegmentClaim.succinct]
  · simp [make, SegmentClaim.succinct, SegmentClaim.span]
  · simp [make, SegmentClaim.succinct]
  · simp [make, SegmentClaim.span]

/-- The last segment is the one in front of the stop of the span. -/
theorem Covers.index_last {leaves : List SegmentReceipt} (h : r.Covers leaves)
    {last : SegmentReceipt} (hlast : leaves.getLast? = some last) :
    last.claim.index.toNat + 1 = r.span.stop := by
  obtain ⟨first, rest, rfl⟩ := List.exists_cons_of_ne_nil h.ne_nil
  rw [List.getLast?_eq_getElem?] at hlast
  rw [index_eq_of_isChain h.chained hlast, (h.first_eq first rfl).1, SegmentSpan.stop, h.count_eq,
    List.length_cons]
  rfl

/-- Two receipts chain if the first segment of one comes after the last segment of the other. -/
theorem Covers.checkChain_eq_ok_iff {lefts rights : List SegmentReceipt} (hl : left.Covers lefts)
    (hr : right.Covers rights) {last second : SegmentReceipt} (hlast : lefts.getLast? = some last)
    (hsecond : rights.head? = some second) :
    left.checkChain right = .ok () ↔ last.claim.Continues second.claim := by
  obtain ⟨hindex, hstart⟩ := hr.first_eq second hsecond
  obtain ⟨hend, hexit⟩ := hl.last_eq last hlast
  have hconfig := hl.config_eq last (List.mem_of_getLast? hlast)
  have hconfig' := hr.config_eq second (List.mem_of_head? hsecond)
  rw [SuccinctReceipt.checkChain_eq_ok_iff, ← hconfig, ← hconfig', ← hend, ← hstart, hexit,
    ← hindex, ← hl.index_last hlast]
  constructor
  · rintro ⟨hconfig, hstates, hcontinuable, hnext⟩
    exact ⟨hconfig, hstates, hcontinuable, hnext⟩
  · rintro ⟨hconfig, hstates, hcontinuable, hnext⟩
    exact ⟨hconfig, hstates, hcontinuable, hnext⟩

/-- A joined receipt covers the segments of both receipts in a row. -/
theorem Covers.join {lefts rights : List SegmentReceipt} (hl : left.Covers lefts)
    (hr : right.Covers rights) {joined : SuccinctReceipt} (h : left.join right = .ok joined) :
    joined.Covers (lefts ++ rights) := by
  obtain ⟨hchain, inputs, depth, span, hspan, -, rfl⟩ := join_eq_ok h
  obtain ⟨hconfig, -⟩ := SuccinctReceipt.checkChain_eq_ok_iff.mp hchain
  obtain ⟨hfirst, hcount, hcycles⟩ := SegmentSpan.append?_eq_some_iff.mp hspan
  refine ⟨by simp [hl.ne_nil], ?_, ?_, ?_, ?_, ?_, ?_, ?_⟩
  · intro leaf h
    exact (List.mem_append.mp h).elim (hl.verified leaf) (hr.verified leaf)
  · intro leaf h
    exact (List.mem_append.mp h).elim (hl.config_eq leaf)
      fun h => (hr.config_eq leaf h).trans hconfig.symm
  · exact List.isChain_append.mpr ⟨hl.chained, hr.chained, fun last hlast second hsecond =>
      (hl.checkChain_eq_ok_iff hr hlast hsecond).mp hchain⟩
  · intro leaf h
    rw [List.head?_append_of_ne_nil _ hl.ne_nil] at h
    obtain ⟨hindex, hstart⟩ := hl.first_eq leaf h
    exact ⟨hindex.trans hfirst.symm, hstart⟩
  · intro leaf h
    rw [List.getLast?_append_of_ne_nil _ hr.ne_nil] at h
    exact hr.last_eq leaf h
  · exact hcount.trans (by rw [List.length_append, hl.count_eq, hr.count_eq])
  · exact hcycles.trans (by rw [List.map_append, List.sum_append, hl.cycles_eq, hr.cycles_eq])

/-- Two receipts that cover fewer segments than there are words have room for being joined. -/
theorem Covers.hasRoom {lefts rights : List SegmentReceipt} (hl : left.Covers lefts)
    (hr : right.Covers rights) (hlen : (lefts ++ rights).length < UInt32.size)
    (hdepth : max left.depth.toNat right.depth.toNat < (lefts ++ rights).length) :
    left.HasRoom right where
  count_lt := by
    rw [hl.count_eq, hr.count_eq, ← List.length_append]
    exact hlen
  cycles_lt := by
    have hsum := sum_toNat_le (fun leaf => leaf.claim.instructionCount) (lefts ++ rights)
    rw [List.map_append, List.sum_append] at hsum
    rw [hl.cycles_eq, hr.cycles_eq]
    refine Nat.lt_of_le_of_lt hsum ?_
    exact Nat.lt_of_le_of_lt (Nat.mul_le_mul_right _ (Nat.le_of_lt hlen)) (by decide)
  depth_lt := Nat.lt_of_le_of_lt hdepth hlen

end SuccinctReceipt

/-! ### Trees of joins -/

/-- A tree of joins over receipts of segments. -/
inductive JoinTree where
  | leaf (receipt : SegmentReceipt)
  | node (left right : JoinTree)

namespace JoinTree

/-- The receipt that a tree makes. -/
def eval : JoinTree → Except (Stop RecursionError) SuccinctReceipt
  | leaf receipt => receipt.lift.mapError .reported
  | node left right => do
    let l ← left.eval
    let r ← right.eval
    l.join r

/-- The receipts of segments in a tree, from left to right. -/
def leaves : JoinTree → List SegmentReceipt
  | leaf receipt => [receipt]
  | node left right => left.leaves ++ right.leaves

/-- The number of joins above the deepest leaf. -/
def height : JoinTree → Nat
  | leaf _ => 0
  | node left right => max left.height right.height + 1

theorem height_lt_length_leaves (t : JoinTree) : t.height < t.leaves.length := by
  induction t with
  | leaf receipt => exact Nat.one_pos
  | node left right ihl ihr =>
    rw [height, leaves, List.length_append]
    omega

theorem eval_leaf_eq_ok_iff {receipt : SegmentReceipt} {r : SuccinctReceipt} :
    (leaf receipt).eval = .ok r ↔ receipt.lift = .ok r :=
  mapError_eq_ok_iff

theorem eval_node_eq_ok_iff {left right : JoinTree} {r : SuccinctReceipt} :
    (node left right).eval = .ok r ↔
      ∃ a b, left.eval = .ok a ∧ right.eval = .ok b ∧ a.join b = .ok r := by
  simp only [eval, bind_eq_ok_iff]
  exact ⟨fun ⟨a, ha, b, hb, h⟩ => ⟨a, b, ha, hb, h⟩, fun ⟨a, b, ha, hb, h⟩ => ⟨a, ha, b, hb, h⟩⟩

/-- The receipt of a tree covers its leaves. -/
theorem covers_of_eval {t : JoinTree} {r : SuccinctReceipt} (h : t.eval = .ok r) :
    r.Covers t.leaves := by
  induction t generalizing r with
  | leaf receipt => exact SuccinctReceipt.covers_lift (eval_leaf_eq_ok_iff.mp h)
  | node left right ihl ihr =>
    obtain ⟨a, b, ha, hb, hjoin⟩ := eval_node_eq_ok_iff.mp h
    exact (ihl ha).join (ihr hb) hjoin

/-- The receipt of a tree states its height. -/
theorem depth_of_eval {t : JoinTree} {r : SuccinctReceipt} (h : t.eval = .ok r) :
    r.depth.toNat = t.height := by
  induction t generalizing r with
  | leaf receipt =>
    obtain ⟨-, rfl⟩ := SuccinctReceipt.lift_eq_ok (eval_leaf_eq_ok_iff.mp h)
    rfl
  | node left right ihl ihr =>
    obtain ⟨a, b, ha, hb, hjoin⟩ := eval_node_eq_ok_iff.mp h
    obtain ⟨-, inputs, depth, span, -, hdepth, rfl⟩ := SuccinctReceipt.join_eq_ok hjoin
    rw [height, ← ihl ha, ← ihr hb]
    exact SuccinctReceipt.joinDepth?_eq_some_iff.mp hdepth

end JoinTree

/-! ### Reducing lists -/

namespace JoinTree

open SuccinctReceipt Pairing

/-- Trees that make the receipts of a list. -/
def Make (ts : List JoinTree) (rs : List SuccinctReceipt) : Prop :=
  List.Forall₂ (fun t r => t.eval = .ok r) ts rs

theorem exists_of_reduceFold {t : JoinTree} {ts : List JoinTree} {r x : SuccinctReceipt}
    {rs : List SuccinctReceipt} (ht : t.eval = .ok r) (hts : Make ts rs)
    (h : reduceFold r rs = .ok x) :
    ∃ t' : JoinTree, t'.leaves = t.leaves ++ ts.flatMap leaves ∧ t'.eval = .ok x := by
  induction hts generalizing t r with
  | nil =>
    obtain rfl := Except.ok.inj h
    exact ⟨t, by simp, ht⟩
  | @cons t₂ r₂ ts rs ht₂ hts ih =>
    obtain ⟨joined, hjoin, hrest⟩ := bind_eq_ok_iff.mp h
    obtain ⟨t', hleaves, heval⟩ :=
      ih (t := .node t t₂) (eval_node_eq_ok_iff.mpr ⟨_, _, ht, ht₂, hjoin⟩) hrest
    exact ⟨t', by rw [hleaves, leaves, List.flatMap_cons, List.append_assoc], heval⟩

/-- One round of joins, which leaves half as many trees over the same leaves. -/
theorem exists_of_pairUpM {ts : List JoinTree} {rs xs : List SuccinctReceipt} (hts : Make ts rs)
    (h : pairUpM join rs = .ok xs) :
    ∃ ts', Make ts' xs ∧ ts'.flatMap leaves = ts.flatMap leaves ∧
      xs.length = (rs.length + 1) / 2 := by
  fun_induction pairUpM join rs generalizing ts xs with
  | case1 a b rs ih =>
    obtain ⟨joined, hjoin, hrest⟩ := bind_eq_ok_iff.mp h
    obtain ⟨ys, hys, hxs⟩ := bind_eq_ok_iff.mp hrest
    obtain rfl := Except.ok.inj hxs
    cases hts with
    | @cons t _ ts _ ht hts =>
      cases hts with
      | @cons t₂ _ ts _ ht₂ hts =>
        obtain ⟨ts', hmake, hleaves, hlen⟩ := ih hts hys
        refine ⟨.node t t₂ :: ts', .cons (eval_node_eq_ok_iff.mpr ⟨_, _, ht, ht₂, hjoin⟩) hmake,
          ?_, ?_⟩
        · simp only [List.flatMap_cons, leaves, hleaves, List.append_assoc]
        · simp only [List.length_cons, hlen]
          omega
  | case2 rs hrs =>
    obtain rfl := Except.ok.inj h
    refine ⟨ts, hts, rfl, ?_⟩
    match rs, hrs with
    | [], _ => rfl
    | [_], _ => simp
    | a :: b :: rs, hrs => exact absurd rfl (hrs a b rs)

/-- Enough rounds of joins leave one tree. -/
theorem exists_of_reduceRounds {rounds : Nat} {ts : List JoinTree} {rs : List SuccinctReceipt}
    {x : SuccinctReceipt} (hts : Make ts rs) (hlen : rs.length ≤ 1 <<< rounds)
    (h : reduceRounds rounds rs = .ok x) :
    ∃ t' : JoinTree, t'.leaves = ts.flatMap leaves ∧ t'.eval = .ok x := by
  induction rounds generalizing ts rs with
  | zero =>
    cases hts with
    | nil => simp [reduceRounds] at h
    | @cons t r ts rs ht hts =>
      obtain rfl := Except.ok.inj h
      cases hts with
      | nil => exact ⟨t, by simp, ht⟩
      | cons _ _ => simp at hlen
  | succ rounds ih =>
    obtain ⟨ys, hys, hrest⟩ := bind_eq_ok_iff.mp h
    obtain ⟨ts', hmake, hleaves, hlen'⟩ := exists_of_pairUpM hts hys
    rw [← hleaves]
    refine ih hmake ?_ hrest
    rw [Nat.one_shiftLeft, Nat.pow_succ] at hlen
    rw [Nat.one_shiftLeft]
    omega

/-- Reducing a list makes a tree over it. -/
theorem exists_of_reduce {strategy : ReductionStrategy} {ts : List JoinTree}
    {rs : List SuccinctReceipt} {x : SuccinctReceipt} (hts : Make ts rs)
    (h : reduce strategy rs = .ok x) :
    ∃ t' : JoinTree, t'.leaves = ts.flatMap leaves ∧ t'.eval = .ok x := by
  cases hts with
  | nil => simp [reduce] at h
  | @cons t r ts rs ht hts =>
    cases strategy with
    | fold => exact exists_of_reduceFold ht hts h
    | tree => exact exists_of_reduceRounds (.cons ht hts) (le_shiftLeft_rounds _) h

/-- Lifting a list makes trees without joins. -/
theorem make_of_mapM_lift {leaves : List SegmentReceipt} {rs : List SuccinctReceipt}
    (h : leaves.mapM SegmentReceipt.lift = .ok rs) : Make (leaves.map leaf) rs := by
  rw [Make, List.forall₂_map_left_iff]
  exact (mapM_eq_ok_iff.mp h).imp fun _ _ => eval_leaf_eq_ok_iff.mpr

/-- Lifting a list of receipts and reducing it makes a tree whose leaves are the list. -/
theorem exists_of_lift_reduce {strategy : ReductionStrategy} {receipts : List SegmentReceipt}
    {rs : List SuccinctReceipt} {x : SuccinctReceipt}
    (hlift : receipts.mapM SegmentReceipt.lift = .ok rs) (h : reduce strategy rs = .ok x) :
    ∃ t : JoinTree, t.leaves = receipts ∧ t.eval = .ok x := by
  obtain ⟨t, hleaves, heval⟩ := exists_of_reduce (make_of_mapM_lift hlift) h
  exact ⟨t, by rw [hleaves, List.flatMap_map]; exact List.flatMap_singleton' receipts, heval⟩

end JoinTree

end ReplayVM
