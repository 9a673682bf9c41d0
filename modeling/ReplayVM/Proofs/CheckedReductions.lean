import ReplayVM.Proofs.MadeReceipts

/-!
# What a reduction checks

Only joins check receipts. A join checks both of its inputs, so in a list of two or more receipts
each one meets the check of the join right above it, also where a round passes it on as it is. The
result of the last join meets no check any more, but is sound as what every join gives. The only
receipt of a list meets no join at all, and is given back whatever it says.

## Main results

* `JoinShape.checkIntegrity_of_mem_leaves`: a shape with a join finds all its receipts sound.
* `SuccinctReceipt.reduce_checked`: what is known of the receipts of a list that was reduced.
* `SuccinctReceipt.not_reduce_checked`: reductions that give a receipt which is not sound.
-/

namespace ReplayVM

open SuccinctReceipt

/-! ### Shapes -/

namespace JoinShape

variable {leaf : Nat → Option SuccinctReceipt} {t : JoinShape} {rs : List SuccinctReceipt}
  {x : SuccinctReceipt}

/-- All receipts that a shape joins are sound, if what comes out is or has gone through a join. -/
theorem checkIntegrity_of_mem_leaves (hrs : t.leaves.mapM leaf = some rs)
    (h : t.eval leaf = some x)
    (hx : ∀ segment, t = .leaf segment → x.checkIntegrity = .ok ()) :
    ∀ r ∈ rs, r.checkIntegrity = .ok () := by
  induction t generalizing rs x with
  | leaf segment =>
    obtain ⟨r, hr, rfl⟩ := mapM_leaves_leaf_eq_some_iff.mp hrs
    obtain rfl : r = x := Option.some.inj (hr.symm.trans h)
    simpa using hx segment rfl
  | join left right ihl ihr =>
    -- Each input of the join is sound, so it does not matter which of them are leaves.
    obtain ⟨as, bs, rfl, has, hbs⟩ := mapM_leaves_join_eq_some_iff.mp hrs
    obtain ⟨a, b, ha, hb, hjoin⟩ := eval_join_eq_some_iff.mp h
    obtain ⟨hsa, hsb, -⟩ := exists_join_iff.mp ⟨x, hjoin⟩
    exact List.forall_mem_append.mpr ⟨ihl has ha fun _ _ => hsa, ihr hbs hb fun _ _ => hsb⟩

end JoinShape

namespace ReductionStrategy

/-- A reduction of two or more receipts ends with a join. -/
theorem exists_shape_eq_join (strategy : ReductionStrategy) {leaves : Nat} (hlen : 2 ≤ leaves) :
    ∃ left right, strategy.shape leaves = .join left right := by
  have hleaves : (strategy.shape leaves).leaves = List.range leaves :=
    strategy.leaves_shape (by omega)
  cases hshape : strategy.shape leaves with
  | join left right => exact ⟨left, right, rfl⟩
  | leaf segment =>
    rw [hshape, JoinShape.leaves] at hleaves
    have := congrArg List.length hleaves
    rw [List.length_singleton, List.length_range] at this
    omega

end ReductionStrategy

/-! ### Reductions -/

namespace SuccinctReceipt

variable {strategy : ReductionStrategy} {rs : List SuccinctReceipt} {r x : SuccinctReceipt}

theorem reduce_nil (strategy : ReductionStrategy) :
    reduce strategy [] = .error (.reported .emptyInput) := rfl

/-- The only receipt of a list is given back without a check. -/
theorem reduce_singleton (strategy : ReductionStrategy) (r : SuccinctReceipt) :
    reduce strategy [r] = .ok r := by
  cases strategy <;> rfl

/-- Two receipts are joined. -/
theorem reduce_pair (strategy : ReductionStrategy) (a b : SuccinctReceipt) :
    reduce strategy [a, b] = a.join b := by
  cases strategy with
  | fold =>
    rw [reduce, reduceFold]
    cases a.join b <;> rfl
  | tree =>
    change (do let joined ← Pairing.pairUpM join [a, b]; reduceRounds 0 joined) = _
    rw [Pairing.pairUpM]
    cases a.join b <;> rfl

/-- The shape of a reduction has the receipts of the list as its leaves. -/
theorem mapM_leaves_shape (strategy : ReductionStrategy) (hpos : 0 < rs.length) :
    (strategy.shape rs.length).leaves.mapM (rs[·]?) = some rs := by
  rw [strategy.leaves_shape hpos]
  exact mapM_getElem?_range rs

/-- A reduction of two or more receipts joins two receipts last, below which all are sound. -/
theorem exists_join_of_reduce (hlen : 2 ≤ rs.length) (h : reduce strategy rs = .ok x) :
    (∀ r ∈ rs, r.checkIntegrity = .ok ()) ∧ ∃ a b : SuccinctReceipt, a.join b = .ok x := by
  have hpos : 0 < rs.length := by omega
  have hleaves := mapM_leaves_shape strategy hpos
  have heval := (reduce_eq_ok_iff (List.length_pos_iff.mp hpos)).mp h
  obtain ⟨left, right, hshape⟩ := strategy.exists_shape_eq_join hlen
  rw [hshape] at hleaves heval
  obtain ⟨a, b, -, -, hjoin⟩ := JoinShape.eval_join_eq_some_iff.mp heval
  exact ⟨JoinShape.checkIntegrity_of_mem_leaves hleaves heval nofun, a, b, hjoin⟩

/-- **Reductions check what they join.** A list that is reduced to a receipt has that receipt as its
only one, or has two or more, all of which are sound, and then what they are reduced to is sound as
well. So it is sound exactly if all receipts of the list are. -/
theorem reduce_checked (h : reduce strategy rs = .ok x) :
    (rs = [x] ∨ 2 ≤ rs.length ∧ (∀ r ∈ rs, r.checkIntegrity = .ok ()) ∧
      x.checkIntegrity = .ok ()) ∧
    (x.checkIntegrity = .ok () ↔ ∀ r ∈ rs, r.checkIntegrity = .ok ()) := by
  rcases rs with _ | ⟨r, _ | ⟨second, rs⟩⟩
  · exact nomatch (reduce_nil strategy).symm.trans h
  · obtain rfl := Except.ok.inj ((reduce_singleton strategy r).symm.trans h)
    exact ⟨.inl rfl, by simp⟩
  · obtain ⟨hsound, a, b, hjoin⟩ := exists_join_of_reduce (by simp) h
    have hx := checkIntegrity_join hjoin
    exact ⟨.inr ⟨by simp, hsound, hx⟩, iff_of_true hx hsound⟩

/-- Two segments that follow each other are checked, and reduced to a sound receipt. -/
theorem reduce_checked_idle : ∃ x, reduce .tree [idle 0, idle 1] = .ok x ∧
    (∀ r ∈ [idle 0, idle 1], r.checkIntegrity = .ok ()) ∧ x.checkIntegrity = .ok () := by
  obtain ⟨x, hjoin⟩ : ∃ x, (idle 0).join (idle 1) = .ok x :=
    exists_join_iff.mpr ⟨checkIntegrity_idle 0, checkIntegrity_idle 1, rfl,
      by decide, by decide, by decide⟩
  have hreduce : reduce .tree [idle 0, idle 1] = .ok x := (reduce_pair .tree _ _).trans hjoin
  obtain ⟨hsingle | ⟨-, hsound, hx⟩, -⟩ := reduce_checked hreduce
  · exact absurd (congrArg List.length hsingle) (by simp)
  · exact ⟨x, hreduce, hsound, hx⟩

/-- A receipt whose seal is missing is given back by both strategies. -/
theorem not_reduce_checked :
    (∀ strategy, reduce strategy [{ idle 0 with sealBytes := [] }] =
      .ok { idle 0 with sealBytes := [] }) ∧
    ({ idle 0 with sealBytes := [] } : SuccinctReceipt).checkIntegrity ≠ .ok () := by
  refine ⟨fun strategy => reduce_singleton strategy _, fun hsound => ?_⟩
  obtain ⟨content, hseal⟩ := checkIntegrity_eq_ok_iff.mp hsound
  exact nomatch hseal

end SuccinctReceipt

end ReplayVM
