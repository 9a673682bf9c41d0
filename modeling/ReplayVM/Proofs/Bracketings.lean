import Mathlib.Algebra.Order.BigOperators.Group.List
import Mathlib.Algebra.Order.Group.Nat
import ReplayVM.Proofs.JoiningCompleteness
import ReplayVM.Proofs.JoinPlans

/-!
# Bracketings

The receipts of a list can be joined under every full bracketing of the list. Each join checks its
two inputs anew, inputs that were just made included, so it is not obvious that the bracketing does
not matter. It does not, because a join passes on what its neighbours look at: a joined receipt
starts as its first one does, ends as its last one does, and is bound to a seal of its own. So the
checks of all joins together are those of neighbours in the list. Only the depth tells bracketings
apart; the two strategies reach the least and the greatest one.

## Main definitions

* `JoinShape.leaves`, `JoinShape.height`: what a shape joins, and how deep.
* `ReductionStrategy.height`: the height of a reduction.
* `SuccinctReceipt.Chained`: receipts that are sound and follow each other.
* `SuccinctReceipt.Composes`: a receipt that states what a list of receipts amounts to.

## Main results

* `ReductionStrategy.leaves_shape`, `ReductionStrategy.height_shape`: what reductions join.
* `JoinShape.composes_of_eval`, `JoinShape.exists_eval_iff`: what a shape gives, and when.
* `SuccinctReceipt.join_bracketings`: bracketings give receipts of the same lists, with one claim.
-/

namespace ReplayVM

open Pairing

/-! ### Neighbours in a list -/

theorem isChain_and_iff {α : Type} {R S : α → α → Prop} {as : List α} :
    (as.IsChain fun a b => R a b ∧ S a b) ↔ as.IsChain R ∧ as.IsChain S := by
  simp only [List.isChain_iff_getElem, forall_and]

/-- What holds of the left one of two neighbours holds of all but the last one. -/
theorem isChain_left_iff {α : Type} {P : α → Prop} : ∀ {as : List α},
    (as.IsChain fun a _ => P a) ↔ ∀ a ∈ as.dropLast, P a
  | [] => by simp
  | [_] => by simp
  | a :: b :: as => by
    rw [List.isChain_cons_cons, isChain_left_iff, List.dropLast_cons_cons, List.forall_mem_cons]

/-- Neighbours have a value in common if all have it in common. -/
theorem isChain_eq_iff {α β : Type} {f : α → β} {as : List α} :
    (as.IsChain fun a b => f a = f b) ↔ ∀ a ∈ as, ∀ b ∈ as, f a = f b := by
  constructor
  · intro h
    have : IsTrans α fun a b => f a = f b := ⟨fun _ _ _ => Eq.trans⟩
    have : Std.Symm fun a b : α => f a = f b := ⟨fun _ _ => Eq.symm⟩
    exact fun a ha b hb => List.Pairwise.forall_of_forall (R := fun a b => f a = f b)
      (fun _ _ => rfl) h.pairwise ha hb
  · intro h
    exact List.isChain_iff_getElem.mpr fun i _ =>
      h _ (List.getElem_mem _) _ (List.getElem_mem _)

/-! ### Leaves and heights of shapes -/

namespace JoinShape

/-- The numbers that a shape joins, from left to right. -/
def leaves : JoinShape → List Nat
  | .leaf segment => [segment]
  | .join left right => left.leaves ++ right.leaves

/-- The number of joins above the deepest leaf. -/
def height : JoinShape → Nat
  | .leaf _ => 0
  | .join left right => max left.height right.height + 1

theorem height_lt_length_leaves (t : JoinShape) : t.height < t.leaves.length := by
  induction t with
  | leaf segment => exact Nat.one_pos
  | join left right ihl ihr =>
    rw [height, leaves, List.length_append]
    omega

theorem leaves_ne_nil (t : JoinShape) : t.leaves ≠ [] :=
  List.length_pos_iff.mp (Nat.zero_lt_of_lt t.height_lt_length_leaves)

theorem flatMap_leaves_pairUp : ∀ ts : List JoinShape,
    (pairUp .join ts).flatMap leaves = ts.flatMap leaves
  | [] => rfl
  | [_] => rfl
  | a :: b :: ts => by
    simp only [pairUp, List.flatMap_cons, leaves, flatMap_leaves_pairUp ts, List.append_assoc]

theorem leaves_ofRounds {rounds : Nat} {ts : List JoinShape} (hne : ts ≠ [])
    (hlen : ts.length ≤ 1 <<< rounds) : (ofRounds rounds ts).leaves = ts.flatMap leaves := by
  induction rounds generalizing ts with
  | zero =>
    obtain ⟨t, ts, rfl⟩ := List.exists_cons_of_ne_nil hne
    obtain rfl : ts = [] := by
      rw [List.length_cons, Nat.shiftLeft_zero] at hlen
      exact List.eq_nil_of_length_eq_zero (by omega)
    simp [ofRounds]
  | succ rounds ih =>
    have hpos := List.length_pos_iff.mpr hne
    have hpair := length_pairUp JoinShape.join ts
    rw [Nat.shiftLeft_succ] at hlen
    rw [ofRounds, ih (List.length_pos_iff.mp (by omega)) (by omega), flatMap_leaves_pairUp]

theorem leaves_foldl (t : JoinShape) (ts : List JoinShape) :
    (ts.foldl .join t).leaves = t.leaves ++ ts.flatMap leaves := by
  induction ts generalizing t with
  | nil => simp
  | cons next ts ih => rw [List.foldl_cons, ih, leaves, List.flatMap_cons, List.append_assoc]

/-- A round of joins makes no shape higher by more than one. -/
theorem height_le_of_mem_pairUp {h : Nat} : ∀ {ts : List JoinShape}, (∀ t ∈ ts, t.height ≤ h) →
    ∀ t ∈ pairUp .join ts, t.height ≤ h + 1
  | [], _ => by simp [pairUp]
  | [t], hle => by simpa [pairUp] using Nat.le_succ_of_le (hle t List.mem_cons_self)
  | a :: b :: ts, hle => by
    simp only [List.forall_mem_cons] at hle
    obtain ⟨ha, hb, hrest⟩ := hle
    rw [pairUp, List.forall_mem_cons, height]
    exact ⟨by omega, height_le_of_mem_pairUp hrest⟩

/-- A round of joins leaves the highest shape in front, and makes it higher by one. -/
theorem height_head_pairUp {ts : List JoinShape} {h : Nat} (hhead : ∀ t ∈ ts.head?, t.height = h)
    (hle : ∀ t ∈ ts, t.height ≤ h) (hlen : 2 ≤ ts.length) :
    ∀ t ∈ (pairUp .join ts).head?, t.height = h + 1 := by
  rcases ts with _ | ⟨a, _ | ⟨b, ts⟩⟩
  · simp at hlen
  · simp at hlen
  · have ha : a.height = h := hhead a rfl
    have hb := hle b (by simp)
    rw [pairUp]
    rintro t ⟨⟩
    rw [height]
    omega

/-- The height that rounds of joins reach when no round is idle. -/
theorem height_ofRounds {rounds : Nat} {ts : List JoinShape} {h : Nat}
    (hhead : ∀ t ∈ ts.head?, t.height = h) (hle : ∀ t ∈ ts, t.height ≤ h)
    (hlow : 1 <<< rounds < 2 * ts.length) : (ofRounds rounds ts).height = h + rounds := by
  induction rounds generalizing ts h with
  | zero =>
    obtain ⟨t, ts, rfl⟩ : ∃ t ts', ts = t :: ts' :=
      List.exists_cons_of_length_pos (by rw [Nat.shiftLeft_zero] at hlow; omega)
    exact hhead t rfl
  | succ rounds ih =>
    have hpos := shiftLeft_pos rounds
    have hpair := length_pairUp JoinShape.join ts
    rw [Nat.shiftLeft_succ] at hlow
    have hhead' := height_head_pairUp hhead hle (by omega)
    rw [ofRounds, ih hhead' (height_le_of_mem_pairUp hle) (by omega)]
    omega

/-- Each further leaf makes a chain of joins higher by one. -/
theorem height_foldl {t : JoinShape} {ts : List JoinShape} (hle : ∀ u ∈ ts, u.height ≤ t.height) :
    (ts.foldl .join t).height = t.height + ts.length := by
  induction ts generalizing t with
  | nil => rfl
  | cons next ts ih =>
    have hnext := hle next List.mem_cons_self
    have hstep : (JoinShape.join t next).height = t.height + 1 := by
      rw [height]
      omega
    have hrest : ∀ u ∈ ts, u.height ≤ (JoinShape.join t next).height := by
      intro u hu
      rw [hstep]
      exact Nat.le_succ_of_le (hle u (List.mem_cons_of_mem _ hu))
    rw [List.foldl_cons, ih hrest, hstep, List.length_cons]
    omega

end JoinShape

namespace ReductionStrategy

/-- The number of joins above the deepest receipt when so many receipts are reduced. -/
def height : ReductionStrategy → (leaves : Nat) → Nat
  | .tree, leaves => Nat.clog 2 leaves
  | .fold, leaves => leaves - 1

variable {leaves : Nat}

theorem flatMap_leaves_range (leaves : Nat) :
    ((List.range leaves).map JoinShape.leaf).flatMap JoinShape.leaves = List.range leaves := by
  rw [List.flatMap_map]
  exact List.flatMap_singleton' _

/-- A reduction joins its receipts in order. -/
theorem leaves_shape (strategy : ReductionStrategy) (hpos : 0 < leaves) :
    (strategy.shape leaves).leaves = List.range leaves := by
  have hne : (List.range leaves).map JoinShape.leaf ≠ [] := by
    simpa using Nat.ne_of_gt hpos
  rw [← flatMap_leaves_range leaves]
  cases strategy with
  | fold =>
    obtain ⟨n, rfl⟩ := Nat.exists_eq_succ_of_ne_zero (Nat.ne_of_gt hpos)
    rw [shape, JoinShape.leaves_foldl, List.range_succ_eq_map]
    rfl
  | tree => exact JoinShape.leaves_ofRounds hne (by simpa using le_shiftLeft_rounds leaves)

/-- The balanced reduction is as high as a full tree with room for its receipts, the reduction from
the left has a join less than receipts. -/
theorem height_shape (strategy : ReductionStrategy) (hpos : 0 < leaves) :
    (strategy.shape leaves).height = strategy.height leaves := by
  have hzero : ∀ t ∈ (List.range leaves).map JoinShape.leaf, t.height = 0 := by
    intro t ht
    obtain ⟨i, -, rfl⟩ := List.mem_map.mp ht
    rfl
  cases strategy with
  | fold =>
    have hle : ∀ t ∈ ((List.range leaves).map JoinShape.leaf).drop 1,
        t.height ≤ (JoinShape.leaf 0).height := fun t ht =>
      Nat.le_of_eq (hzero t (List.mem_of_mem_drop ht))
    rw [shape, JoinShape.height_foldl hle]
    simp [JoinShape.height, height]
  | tree =>
    rw [shape, JoinShape.height_ofRounds (fun t ht => hzero t (List.mem_of_head? ht))
      (fun t ht => Nat.le_of_eq (hzero t ht)) (by simpa using shiftLeft_rounds_lt hpos), height,
      ← rounds_eq_clog, Nat.zero_add]

end ReductionStrategy

/-! ### Receipts in a row -/

namespace SuccinctReceipt

variable {a b r x : SuccinctReceipt} {as bs rs : List SuccinctReceipt}

attribute [ext] SuccinctClaim SegmentSpan

/-- Receipts that are sound in themselves and follow each other under the same parameters: each one
starts where the one before ends, behind an exit after which execution can go on, and with the next
segment. -/
structure Chained (rs : List SuccinctReceipt) : Prop where
  sound : ∀ r ∈ rs, r.checkIntegrity = .ok ()
  config_eq : ∀ r ∈ rs, ∀ s ∈ rs, r.claim.configDigest = s.claim.configDigest
  states_eq : rs.IsChain fun a b => a.claim.endCommitment = b.claim.startCommitment
  continuable : ∀ r ∈ rs.dropLast, r.claim.exit.exitCode.isContinuable = true
  spans_eq : rs.IsChain fun a b => a.span.stop = b.span.first.toNat

/-- A receipt that states what a list of receipts amounts to. -/
structure Composes (x : SuccinctReceipt) (rs : List SuccinctReceipt) : Prop where
  config_eq : ∀ r ∈ rs, x.claim.configDigest = r.claim.configDigest
  first_eq : ∀ first ∈ rs.head?, x.claim.startCommitment = first.claim.startCommitment ∧
    x.span.first = first.span.first
  last_eq : ∀ last ∈ rs.getLast?, x.claim.endCommitment = last.claim.endCommitment ∧
    x.claim.exit = last.claim.exit ∧ x.span.stop = last.span.stop
  count_eq : x.span.count.toNat = (rs.map fun r => r.span.count.toNat).sum
  cycles_eq : x.span.cycles.toNat = (rs.map fun r => r.span.cycles.toNat).sum

/-- Receipts whose counters leave room for joining all of them. -/
structure Bounded (rs : List SuccinctReceipt) : Prop where
  count_lt : (rs.map fun r => r.span.count.toNat).sum < UInt32.size
  cycles_lt : (rs.map fun r => r.span.cycles.toNat).sum < UInt64.size
  depth_lt : ∀ r ∈ rs, r.depth.toNat + rs.length < UInt32.size

/-- Receipts follow each other if each pair of neighbours passes the check of a join. -/
theorem chained_iff : Chained rs ↔
    (∀ r ∈ rs, r.checkIntegrity = .ok ()) ∧ rs.IsChain fun a b => a.checkChain b = .ok () := by
  simp only [checkChain_eq_ok_iff, isChain_and_iff, isChain_left_iff, isChain_eq_iff]
  exact ⟨fun ⟨hsound, hconfig, hstates, hcontinuable, hspans⟩ =>
      ⟨hsound, hconfig, hstates, hcontinuable, hspans⟩,
    fun ⟨hsound, hconfig, hstates, hcontinuable, hspans⟩ =>
      ⟨hsound, hconfig, hstates, hcontinuable, hspans⟩⟩

/-- Two lists in a row follow each other where they meet. -/
theorem chained_append_iff : Chained (as ++ bs) ↔ Chained as ∧ Chained bs ∧
    ∀ last ∈ as.getLast?, ∀ second ∈ bs.head?, last.checkChain second = .ok () := by
  simp only [chained_iff, List.forall_mem_append, List.isChain_append]
  tauto

/-- Receipts leave room for joining fewer of them. -/
theorem Bounded.sublist (h : Bounded rs) (hsub : as.Sublist rs) : Bounded as where
  count_lt :=
    Nat.lt_of_le_of_lt ((hsub.map _).sum_le_sum fun _ _ => Nat.zero_le _) h.count_lt
  cycles_lt :=
    Nat.lt_of_le_of_lt ((hsub.map _).sum_le_sum fun _ _ => Nat.zero_le _) h.cycles_lt
  depth_lt r hr :=
    Nat.lt_of_le_of_lt (Nat.add_le_add_left hsub.length_le _) (h.depth_lt r (hsub.mem hr))

theorem Bounded.left (h : Bounded (as ++ bs)) : Bounded as :=
  h.sublist (List.sublist_append_left as bs)

theorem Bounded.right (h : Bounded (as ++ bs)) : Bounded bs :=
  h.sublist (List.sublist_append_right as bs)

/-- A receipt states what it amounts to itself. -/
theorem composes_singleton (r : SuccinctReceipt) : r.Composes [r] where
  config_eq := by simp
  first_eq := by simp
  last_eq := by simp
  count_eq := by simp
  cycles_eq := by simp

/-- Receipts of two lists can be joined if the lists follow each other. -/
theorem Composes.checkChain_eq_ok_iff (ha : a.Composes as) (hb : b.Composes bs)
    {last second : SuccinctReceipt} (hlast : as.getLast? = some last)
    (hsecond : bs.head? = some second) :
    a.checkChain b = .ok () ↔ last.checkChain second = .ok () := by
  obtain ⟨hend, hexit, hstop⟩ := ha.last_eq last hlast
  obtain ⟨hstart, hfirst⟩ := hb.first_eq second hsecond
  rw [SuccinctReceipt.checkChain_eq_ok_iff, SuccinctReceipt.checkChain_eq_ok_iff, hend, hexit,
    hstop, hstart, hfirst, ha.config_eq last (List.mem_of_getLast? hlast),
    hb.config_eq second (List.mem_of_head? hsecond)]

/-- A joined receipt states what both lists in a row amount to. -/
theorem Composes.join (ha : a.Composes as) (hb : b.Composes bs) (has : as ≠ []) (hbs : bs ≠ [])
    (h : a.join b = .ok x) : x.Composes (as ++ bs) := by
  obtain ⟨hchain, inputs, depth, span, hspan, -, rfl⟩ := join_eq_ok h
  obtain ⟨hconfig, -, -, hmeet⟩ := SuccinctReceipt.checkChain_eq_ok_iff.mp hchain
  obtain ⟨hfirst, hcount, hcycles⟩ := SegmentSpan.append?_eq_some_iff.mp hspan
  refine ⟨?_, ?_, ?_, ?_, ?_⟩
  · intro r hr
    exact (List.mem_append.mp hr).elim (ha.config_eq r) fun hr => hconfig.trans (hb.config_eq r hr)
  · intro first h
    rw [List.head?_append_of_ne_nil _ has] at h
    obtain ⟨hstart, hindex⟩ := ha.first_eq first h
    exact ⟨hstart, hfirst.trans hindex⟩
  · intro last hlast
    rw [List.getLast?_append_of_ne_nil _ hbs] at hlast
    obtain ⟨hend, hexit, hstop⟩ := hb.last_eq last hlast
    refine ⟨hend, hexit, ?_⟩
    change span.stop = _
    rw [← hstop, SegmentSpan.stop, hcount, hfirst, SegmentSpan.stop, ← hmeet, SegmentSpan.stop,
      ← Nat.add_assoc]
  · rw [List.map_append, List.sum_append, ← ha.count_eq, ← hb.count_eq]
    exact hcount
  · rw [List.map_append, List.sum_append, ← ha.cycles_eq, ← hb.cycles_eq]
    exact hcycles

/-- What a list of receipts amounts to is one claim over one span. -/
theorem Composes.claim_span_eq {y : SuccinctReceipt} (hx : x.Composes rs) (hy : y.Composes rs)
    (hne : rs ≠ []) : x.claim = y.claim ∧ x.span = y.span := by
  have hfirst := List.head?_eq_some_head hne
  have hlast := List.getLast?_eq_some_getLast hne
  obtain ⟨hstart, hindex⟩ := hx.first_eq _ hfirst
  obtain ⟨hstart', hindex'⟩ := hy.first_eq _ hfirst
  obtain ⟨hend, hexit, -⟩ := hx.last_eq _ hlast
  obtain ⟨hend', hexit', -⟩ := hy.last_eq _ hlast
  have hconfig := hx.config_eq _ (List.head_mem hne)
  have hconfig' := hy.config_eq _ (List.head_mem hne)
  have hcount : x.span.count = y.span.count :=
    UInt32.toNat_inj.mp (hx.count_eq.trans hy.count_eq.symm)
  have hcycles : x.span.cycles = y.span.cycles :=
    UInt64.toNat_inj.mp (hx.cycles_eq.trans hy.cycles_eq.symm)
  exact ⟨SuccinctClaim.ext (hconfig.trans hconfig'.symm) (hstart.trans hstart'.symm)
      (hend.trans hend'.symm) (hexit.trans hexit'.symm),
    SegmentSpan.ext (hindex.trans hindex'.symm) hcount hcycles⟩

end SuccinctReceipt

/-! ### Evaluating shapes -/

theorem toOption_eq_some_iff {ε α : Type} {r : Except ε α} {a : α} :
    r.toOption = some a ↔ r = .ok a := by
  cases r <;> simp [Except.toOption]

namespace JoinShape

open SuccinctReceipt

variable {leaf : Nat → Option SuccinctReceipt} {t left right : JoinShape}
  {rs : List SuccinctReceipt} {x : SuccinctReceipt}

theorem eval_join_eq_some_iff : (join left right).eval leaf = some x ↔
    ∃ a b, left.eval leaf = some a ∧ right.eval leaf = some b ∧ a.join b = .ok x := by
  simp only [eval, Option.bind_eq_some_iff, toOption_eq_some_iff, exists_and_left]

theorem mapM_leaves_leaf_eq_some_iff {segment : Nat} :
    (JoinShape.leaf segment).leaves.mapM leaf = some rs ↔
      ∃ r, leaf segment = some r ∧ rs = [r] := by
  rw [leaves, List.mapM_cons]
  cases leaf segment <;> simp [eq_comm]

theorem mapM_leaves_join_eq_some_iff : (join left right).leaves.mapM leaf = some rs ↔
    ∃ as bs, rs = as ++ bs ∧ left.leaves.mapM leaf = some as ∧
      right.leaves.mapM leaf = some bs := by
  rw [leaves, List.mapM_append]
  cases left.leaves.mapM leaf <;> cases right.leaves.mapM leaf <;> simp [eq_comm]

/-- A shape has receipts to join. -/
theorem ne_nil_of_mapM_leaves (h : t.leaves.mapM leaf = some rs) : rs ≠ [] := by
  rintro rfl
  exact t.leaves_ne_nil (List.length_eq_zero_iff.mp (mapM_eq_some_iff.mp h).length_eq)

theorem length_of_mapM_leaves (h : t.leaves.mapM leaf = some rs) : t.leaves.length = rs.length :=
  (mapM_eq_some_iff.mp h).length_eq

/-- The receipt of a shape states what the receipts of its leaves amount to. -/
theorem composes_of_eval (hrs : t.leaves.mapM leaf = some rs) (h : t.eval leaf = some x) :
    x.Composes rs := by
  induction t generalizing rs x with
  | leaf segment =>
    obtain ⟨r, hr, rfl⟩ := mapM_leaves_leaf_eq_some_iff.mp hrs
    obtain rfl : r = x := Option.some.inj (hr.symm.trans h)
    exact composes_singleton r
  | join left right ihl ihr =>
    obtain ⟨as, bs, rfl, has, hbs⟩ := mapM_leaves_join_eq_some_iff.mp hrs
    obtain ⟨a, b, ha, hb, hjoin⟩ := eval_join_eq_some_iff.mp h
    exact (ihl has ha).join (ihr hbs hb) (ne_nil_of_mapM_leaves has) (ne_nil_of_mapM_leaves hbs)
      hjoin

/-- Joins add their number to the depth of what is joined. -/
theorem depth_of_eval {depth : Nat} (hrs : t.leaves.mapM leaf = some rs)
    (hdepth : ∀ r ∈ rs, r.depth.toNat ≤ depth) (h : t.eval leaf = some x) :
    t.height ≤ x.depth.toNat ∧ x.depth.toNat ≤ depth + t.height := by
  induction t generalizing rs x with
  | leaf segment =>
    obtain ⟨r, hr, rfl⟩ := mapM_leaves_leaf_eq_some_iff.mp hrs
    obtain rfl : r = x := Option.some.inj (hr.symm.trans h)
    exact ⟨Nat.zero_le _, hdepth r (List.mem_singleton_self r)⟩
  | join left right ihl ihr =>
    obtain ⟨as, bs, rfl, has, hbs⟩ := mapM_leaves_join_eq_some_iff.mp hrs
    obtain ⟨a, b, ha, hb, hjoin⟩ := eval_join_eq_some_iff.mp h
    rw [List.forall_mem_append] at hdepth
    obtain ⟨hal, hau⟩ := ihl has hdepth.1 ha
    obtain ⟨hbl, hbu⟩ := ihr hbs hdepth.2 hb
    obtain ⟨-, inputs, d, span, -, hd, rfl⟩ := join_eq_ok hjoin
    rw [height]
    change _ ≤ d.toNat ∧ d.toNat ≤ _
    rw [joinDepth?_eq_some_iff.mp hd]
    omega

/-- No number overflows at a join of receipts that leave room for it. -/
theorem hasRoom_of_eval {a b : SuccinctReceipt}
    (hrs : (join left right).leaves.mapM leaf = some rs) (hbound : Bounded rs)
    (ha : left.eval leaf = some a) (hb : right.eval leaf = some b) : a.HasRoom b := by
  have hheight := (join left right).height_lt_length_leaves
  rw [length_of_mapM_leaves hrs, height] at hheight
  have hdepth : ∀ r ∈ rs, r.depth.toNat ≤ UInt32.size - 1 - rs.length := by
    intro r hr
    have := hbound.depth_lt r hr
    omega
  obtain ⟨r, hr⟩ := List.exists_mem_of_ne_nil rs (ne_nil_of_mapM_leaves hrs)
  have hlen := hbound.depth_lt r hr
  obtain ⟨as, bs, rfl, has, hbs⟩ := mapM_leaves_join_eq_some_iff.mp hrs
  rw [List.forall_mem_append] at hdepth
  have hcount := hbound.count_lt
  have hcycles := hbound.cycles_lt
  rw [List.map_append, List.sum_append] at hcount hcycles
  have happend : (as ++ bs).length = as.length + bs.length := List.length_append
  have hal := (depth_of_eval has hdepth.1 ha).2
  have hbl := (depth_of_eval hbs hdepth.2 hb).2
  have hca := composes_of_eval has ha
  have hcb := composes_of_eval hbs hb
  exact ⟨by rwa [hca.count_eq, hcb.count_eq], by rwa [hca.cycles_eq, hcb.cycles_eq], by omega⟩

/-- A shape gives a sound receipt if the receipts of its leaves are sound and follow each other. -/
theorem exists_sound_eval_iff (hrs : t.leaves.mapM leaf = some rs) (hbound : Bounded rs) :
    (∃ x, t.eval leaf = some x ∧ x.checkIntegrity = .ok ()) ↔ Chained rs := by
  -- A join checks its inputs anew, so the induction needs that what it gives is sound again.
  induction t generalizing rs with
  | leaf segment =>
    obtain ⟨r, hr, rfl⟩ := mapM_leaves_leaf_eq_some_iff.mp hrs
    simp [eval, hr, chained_iff]
  | join left right ihl ihr =>
    obtain ⟨as, bs, rfl, has, hbs⟩ := mapM_leaves_join_eq_some_iff.mp hrs
    have hlast := List.getLast?_eq_some_getLast (ne_nil_of_mapM_leaves has)
    have hsecond := List.head?_eq_some_head (ne_nil_of_mapM_leaves hbs)
    have hmeet {a b : SuccinctReceipt} (ha : left.eval leaf = some a)
        (hb : right.eval leaf = some b) :=
      (composes_of_eval has ha).checkChain_eq_ok_iff (composes_of_eval hbs hb) hlast hsecond
    rw [chained_append_iff, ← ihl has hbound.left, ← ihr hbs hbound.right]
    constructor
    · rintro ⟨x, hx, -⟩
      obtain ⟨a, b, ha, hb, hjoin⟩ := eval_join_eq_some_iff.mp hx
      obtain ⟨hsa, hsb, hchain, -⟩ := exists_join_iff.mp ⟨x, hjoin⟩
      refine ⟨⟨a, ha, hsa⟩, ⟨b, hb, hsb⟩, fun last hlast' second hsecond' => ?_⟩
      obtain rfl := Option.some.inj (hlast.symm.trans hlast')
      obtain rfl := Option.some.inj (hsecond.symm.trans hsecond')
      exact (hmeet ha hb).mp hchain
    · rintro ⟨⟨a, ha, hsa⟩, ⟨b, hb, hsb⟩, hneighbours⟩
      have hchain := (hmeet ha hb).mpr (hneighbours _ hlast _ hsecond)
      obtain ⟨x, hx⟩ :=
        exists_join_iff.mpr ⟨hsa, hsb, hchain, hasRoom_of_eval hrs hbound ha hb⟩
      exact ⟨x, eval_join_eq_some_iff.mpr ⟨a, b, ha, hb, hx⟩, checkIntegrity_join hx⟩

/-- A shape that joins something gives a receipt if the receipts of its leaves are sound and follow
each other. -/
theorem exists_eval_iff (hrs : t.leaves.mapM leaf = some rs) (hbound : Bounded rs)
    (hlen : 2 ≤ rs.length) : (∃ x, t.eval leaf = some x) ↔ Chained rs := by
  rw [← exists_sound_eval_iff hrs hbound]
  cases t with
  | leaf segment =>
    obtain ⟨r, -, rfl⟩ := mapM_leaves_leaf_eq_some_iff.mp hrs
    exact absurd hlen (by simp)
  | join left right =>
    constructor
    · rintro ⟨x, hx⟩
      obtain ⟨a, b, ha, hb, hjoin⟩ := eval_join_eq_some_iff.mp hx
      exact ⟨x, hx, checkIntegrity_join hjoin⟩
    · rintro ⟨x, hx, -⟩
      exact ⟨x, hx⟩

end JoinShape

namespace SuccinctReceipt

variable {a b c : SuccinctReceipt} {rs : List SuccinctReceipt}

theorem mapM_getElem?_range (rs : List SuccinctReceipt) :
    (List.range rs.length).mapM (rs[·]?) = some rs := by
  refine mapM_eq_some_iff.mpr (List.forall₂_iff_get.mpr ⟨List.length_range, fun i hi hi' => ?_⟩)
  simp [hi']

/-- Reducing a list joins it under the shape of the strategy. -/
theorem reduce_eq_ok_iff {strategy : ReductionStrategy} {x : SuccinctReceipt} (hne : rs ≠ []) :
    reduce strategy rs = .ok x ↔ (strategy.shape rs.length).eval (rs[·]?) = some x := by
  rw [JoinShape.eval_shape strategy (List.length_pos_iff.mpr hne), mapM_getElem?_range,
    Option.bind_some]
  cases reduce strategy rs <;> simp [Except.toOption]

/-- Joining is associative. -/
theorem join_assoc (hbound : Bounded [a, b, c]) :
    ((∃ ab x, a.join b = .ok ab ∧ ab.join c = .ok x) ↔
      ∃ bc x, b.join c = .ok bc ∧ a.join bc = .ok x) ∧
    ∀ ab bc x y, a.join b = .ok ab → ab.join c = .ok x → b.join c = .ok bc → a.join bc = .ok y →
      x.claim = y.claim ∧ x.span = y.span := by
  let first : JoinShape := .join (.join (.leaf 0) (.leaf 1)) (.leaf 2)
  let second : JoinShape := .join (.leaf 0) (.join (.leaf 1) (.leaf 2))
  have hfirst (x : SuccinctReceipt) : first.eval ([a, b, c][·]?) = some x ↔
      ∃ ab, a.join b = .ok ab ∧ ab.join c = .ok x := by
    simp [first, JoinShape.eval, Option.bind_eq_some_iff, toOption_eq_some_iff]
  have hsecond (x : SuccinctReceipt) : second.eval ([a, b, c][·]?) = some x ↔
      ∃ bc, b.join c = .ok bc ∧ a.join bc = .ok x := by
    simp [second, JoinShape.eval, Option.bind_eq_some_iff, toOption_eq_some_iff]
  have hleaves : first.leaves.mapM ([a, b, c][·]?) = some [a, b, c] :=
    mapM_getElem?_range [a, b, c]
  have hleaves' : second.leaves.mapM ([a, b, c][·]?) = some [a, b, c] :=
    mapM_getElem?_range [a, b, c]
  refine ⟨?_, fun ab bc x y hab hx hbc hy => ?_⟩
  · have hiff := (JoinShape.exists_eval_iff hleaves hbound (by simp)).trans
      (JoinShape.exists_eval_iff hleaves' hbound (by simp)).symm
    simp only [hfirst, hsecond] at hiff
    rw [exists_comm, hiff, exists_comm]
  · exact (JoinShape.composes_of_eval hleaves ((hfirst x).mpr ⟨ab, hab, hx⟩)).claim_span_eq
      (JoinShape.composes_of_eval hleaves' ((hsecond y).mpr ⟨bc, hbc, hy⟩)) (by simp)

/-- **Bracketings.** Whether a list of receipts with room in their counters can be joined does not
depend on the bracketing: it can if the receipts are sound and each one continues the one before it.
The result states what the list amounts to, whatever the bracketing. In particular, joining is
associative, and both strategies reduce the same lists, to receipts that differ in their depth. -/
theorem join_bracketings (hlen : 2 ≤ rs.length) (hbound : Bounded rs) :
    (∀ t : JoinShape, t.leaves = List.range rs.length →
      ((∃ x, t.eval (rs[·]?) = some x) ↔ Chained rs) ∧
      ∀ x, t.eval (rs[·]?) = some x → x.Composes rs) ∧
    (∀ x y : SuccinctReceipt, x.Composes rs → y.Composes rs →
      x.claim = y.claim ∧ x.span = y.span) ∧
    (∀ a b c, rs = [a, b, c] →
      ((∃ ab x, a.join b = .ok ab ∧ ab.join c = .ok x) ↔
        ∃ bc x, b.join c = .ok bc ∧ a.join bc = .ok x) ∧
      ∀ ab bc x y, a.join b = .ok ab → ab.join c = .ok x → b.join c = .ok bc → a.join bc = .ok y →
        x.claim = y.claim ∧ x.span = y.span) ∧
    ∀ strategy : ReductionStrategy,
      ((∃ x, reduce strategy rs = .ok x) ↔ Chained rs) ∧
      ∀ x, reduce strategy rs = .ok x → x.Composes rs ∧
        ((∀ r ∈ rs, r.depth = 0) → x.depth.toNat = strategy.height rs.length) := by
  have hne : rs ≠ [] := List.length_pos_iff.mp (by omega)
  have hshape {t : JoinShape} (ht : t.leaves = List.range rs.length) :
      t.leaves.mapM (rs[·]?) = some rs := ht ▸ mapM_getElem?_range rs
  have hsame (x y : SuccinctReceipt) (hx : x.Composes rs) (hy : y.Composes rs) :
      x.claim = y.claim ∧ x.span = y.span := hx.claim_span_eq hy hne
  refine ⟨fun t ht => ⟨JoinShape.exists_eval_iff (hshape ht) hbound hlen, fun x hx =>
    JoinShape.composes_of_eval (hshape ht) hx⟩, hsame, ?_, ?_⟩
  · rintro a b c rfl
    exact join_assoc hbound
  · intro strategy
    have hleaves := hshape (strategy.leaves_shape (List.length_pos_iff.mpr hne))
    simp only [reduce_eq_ok_iff hne]
    refine ⟨JoinShape.exists_eval_iff hleaves hbound hlen, fun x hx =>
      ⟨JoinShape.composes_of_eval hleaves hx, fun hzero => ?_⟩⟩
    have hdepth : ∀ r ∈ rs, r.depth.toNat ≤ 0 := fun r hr => by rw [hzero r hr]; rfl
    obtain ⟨hlow, hhigh⟩ := JoinShape.depth_of_eval hleaves hdepth hx
    rw [strategy.height_shape (List.length_pos_iff.mpr hne)] at hlow hhigh
    omega

/-- A lifted receipt of a segment that ends in the state in which it started. -/
def idle (index : UInt32) : SuccinctReceipt :=
  make .lift ⟨.zero, .zero, .zero, ⟨.systemSplit, .zero⟩⟩ .zero 0 ⟨index, 1, 1⟩

theorem checkIntegrity_idle (index : UInt32) : (idle index).checkIntegrity = .ok () :=
  checkIntegrity_eq_ok_iff.mpr
    ⟨_, checkedSeal_make rfl (show (1 : UInt32) ≠ 0 by decide) fun _ => rfl⟩

/-- Four receipts that follow each other, which are joined at depth two or three. -/
theorem join_idle_bracketings :
    2 ≤ [idle 0, idle 1, idle 2, idle 3].length ∧ Bounded [idle 0, idle 1, idle 2, idle 3] ∧
    ∃ x y, reduce .tree [idle 0, idle 1, idle 2, idle 3] = .ok x ∧
      reduce .fold [idle 0, idle 1, idle 2, idle 3] = .ok y ∧
      x.claim = y.claim ∧ x.span = y.span ∧ x.span.count.toNat = 4 ∧
      x.depth.toNat = 2 ∧ y.depth.toNat = 3 := by
  have hbound : Bounded [idle 0, idle 1, idle 2, idle 3] := by
    refine ⟨by decide, by decide, ?_⟩
    simp only [List.forall_mem_cons]
    decide
  have hchained : Chained [idle 0, idle 1, idle 2, idle 3] := by
    refine chained_iff.mpr ⟨by simp [checkIntegrity_idle], ?_⟩
    simp only [List.isChain_cons_cons, List.isChain_singleton]
    exact ⟨rfl, rfl, rfl, trivial⟩
  obtain ⟨-, hsame, -, hreduce⟩ := join_bracketings (by decide) hbound
  obtain ⟨x, hx⟩ := (hreduce .tree).1.mpr hchained
  obtain ⟨y, hy⟩ := (hreduce .fold).1.mpr hchained
  obtain ⟨hxs, hxd⟩ := (hreduce .tree).2 x hx
  obtain ⟨hys, hyd⟩ := (hreduce .fold).2 y hy
  have hzero : ∀ r ∈ [idle 0, idle 1, idle 2, idle 3], r.depth = 0 := by
    simp only [List.forall_mem_cons]
    exact ⟨rfl, rfl, rfl, rfl, by simp⟩
  obtain ⟨hclaim, hspan⟩ := hsame x y hxs hys
  refine ⟨by decide, hbound, x, y, hx, hy, hclaim, hspan, hxs.count_eq, ?_, hyd hzero⟩
  rw [hxd hzero]
  decide

end SuccinctReceipt

end ReplayVM
