import ReplayVM.Proofs.Bracketings
import ReplayVM.Proofs.PlanProgress

/-!
# Histories of join plans

A plan keeps the same tree three times over: a join names its inputs, a node names the join that it
is an input of, and a join counts the inputs that are missing. All three are written while the plan
is made, the last one again while results come in. They agree, whatever the number of segments, and
they go on agreeing in whatever order the results come and the inputs of joins are taken out, so a
join is called ready once, when its last input comes, and then has both of them.

## Main definitions

* `JoinPlan.Arranged`: a plan whose nodes are those of one tree over its segments.
* `JoinPlan.History`: what has happened to a plan.
* `JoinPlan.Serves`: a plan that called the right joins ready and has their inputs.

## Main results

* `JoinPlan.arranged_make`: a new plan is one tree.
* `JoinPlan.History.serves`: what every history of a plan preserves.
* `JoinPlan.make_serves`: both, for every number of segments.
-/

namespace ReplayVM.JoinPlan

variable {α : Type} {p₀ p : JoinPlan α} {leaves : Nat} {roots : List Nat}
  {done : Nat → Option α} {ready taken : List Nat}

/-! ### Plans as trees -/

/-- A plan whose nodes are those of one binary tree over its segments. Those of the segments come
first, then a join less than segments, each behind its two inputs. Every node but the root is an
input of one join, which is its parent. From left to right, the tree has the segments in order, and
it is as high as the strategy makes it. -/
structure Arranged (strategy : ReductionStrategy) (leaves : Nat) (p : JoinPlan α) : Prop where
  leaves_eq : p.leaves = leaves
  joins_eq : p.joins = leaves - 1
  size_eq : p.nodes.size = leaves + p.joins
  leaf_or_join : ∀ (id : Nat) (node : PlanNode α), p.nodes[id]? = some node →
    (id < leaves ∧ node.kind = .leaf id) ∨
    (leaves ≤ id ∧ ∃ left right, node.kind = .join left right ∧ left < id ∧ right < id ∧
      left ≠ right)
  parent_unique : ∀ (id : Nat) (child : PlanNode α), p.nodes[id]? = some child → id ≠ p.root →
    ∃ parent, child.parent = some parent ∧
      ∀ q, (∃ node, p.nodes[q]? = some node ∧ Takes node.kind id) ↔ q = parent
  root_free : ∃ root, p.nodes[p.root]? = some root ∧ root.parent = none ∧
    ∀ (q : Nat) (node : PlanNode α), p.nodes[q]? = some node → ¬Takes node.kind p.root
  has_shape : ∃ t, Has p.nodes p.root t ∧ t.leaves = List.range leaves ∧
    t.height = strategy.height leaves

/-- A node of a forest is that of a segment or a join behind its inputs. -/
theorem Forest.leaf_or_join (hf : Forest leaves p.nodes roots) {id : Nat} {node : PlanNode α}
    (hnode : p.nodes[id]? = some node) : (id < leaves ∧ node.kind = .leaf id) ∨
      (leaves ≤ id ∧ ∃ left right, node.kind = .join left right ∧ left < id ∧ right < id ∧
        left ≠ right) := by
  cases hkind : node.kind with
  | leaf segment =>
    obtain ⟨rfl, hid, -⟩ := hf.leaf_eq id node segment hnode hkind
    exact .inl ⟨hid, rfl⟩
  | join left right =>
    obtain ⟨hid, hl, hr, hne, -⟩ := hf.join_eq id node left right hnode hkind
    exact .inr ⟨hid, left, right, rfl, hl, hr, hne⟩

/-- A node with a parent is an input of this parent alone. -/
theorem Forest.takes_iff_of_parent (hf : Forest leaves p.nodes roots) {id parent : Nat}
    {child : PlanNode α} (hchild : p.nodes[id]? = some child) (hparent : child.parent = some parent)
    (q : Nat) : (∃ node, p.nodes[q]? = some node ∧ Takes node.kind id) ↔ q = parent := by
  rw [← hf.parent_iff id child q hchild, hparent, Option.some.injEq, eq_comm]

/-- A new plan is one tree over its segments. -/
theorem arranged_make (strategy : ReductionStrategy) (hpos : 0 < leaves) :
    Arranged strategy leaves (make strategy leaves : JoinPlan α) := by
  obtain ⟨hf, hshape⟩ := make_spec (α := α) strategy hpos
  have hleaves : (make strategy leaves : JoinPlan α).leaves = leaves := rfl
  have hsize := hf.size_eq
  rw [List.length_singleton] at hsize
  have hjoins : (make strategy leaves : JoinPlan α).joins = leaves - 1 := by
    rw [joins, hleaves]
    omega
  obtain ⟨root, hroot, hnone⟩ := (hf.root_iff _).mp (List.mem_singleton_self _)
  refine ⟨hleaves, hjoins, by omega, fun id node => hf.leaf_or_join, fun id child hchild hid => ?_,
    ⟨root, hroot, hnone, fun q node hnode htakes => ?_⟩, _, hshape,
    strategy.leaves_shape hpos, strategy.height_shape hpos⟩
  · cases hparent : child.parent with
    | none =>
      have hmem := (hf.root_iff id).mpr ⟨child, hchild, hparent⟩
      exact absurd (List.mem_singleton.mp hmem) hid
    | some parent => exact ⟨parent, rfl, hf.takes_iff_of_parent hchild hparent⟩
  · have hparent := hf.parent_of_takes hroot hnode htakes
    simp [hnone] at hparent

/-! ### Histories -/

/-- What has happened to a plan: the results that its nodes have had, the joins that it called
ready, in this order, and those of them whose inputs were taken out. A node has its result once. The
inputs of a join are taken out once, when it is called ready or later. -/
inductive History (p₀ : JoinPlan α) :
    (done : Nat → Option α) → (ready taken : List Nat) → JoinPlan α → Prop where
  | start : History p₀ (fun _ => none) [] [] p₀
  | complete {done : Nat → Option α} {ready taken : List Nat} {p : JoinPlan α}
      (h : History p₀ done ready taken p) {id : Nat} (hid : id < p₀.nodes.size)
      (hnone : done id = none) (result : α) :
      History p₀ (Function.update done id (some result))
        (ready ++ (p.complete id result).2.toList) taken (p.complete id result).1
  | takeInputs {done : Nat → Option α} {ready taken : List Nat} {p : JoinPlan α}
      (h : History p₀ done ready taken p) {q : Nat} (hready : q ∈ ready) (hfresh : q ∉ taken)
      {inputs : α × α} {p' : JoinPlan α} (htake : p.takeInputs q = some (inputs, p')) :
      History p₀ done ready (taken ++ [q]) p'

/-- A plan in step with its history: it has the results that were not taken, and the joins that it
called ready are those that have all their inputs, each called once. -/
structure InStep (p₀ : JoinPlan α) (done : Nat → Option α) (ready taken : List Nat)
    (p : JoinPlan α) : Prop where
  keeps : Keeps p₀ done (· ∈ taken) p
  mem_ready : ∀ q ∈ taken, q ∈ ready
  ready_nodup : ready.Nodup
  ready_iff : ∀ q, q ∈ ready ↔ ∃ node, p₀.nodes[q]? = some node ∧ (∃ id, Takes node.kind id) ∧
    missing done node.kind = 0

/-- A join that waits for an input was not called ready. -/
theorem InStep.not_mem_of_takes (h : InStep p₀ done ready taken p) {id q : Nat}
    {node : PlanNode α} (hnone : done id = none) (hnode : p₀.nodes[q]? = some node)
    (htakes : Takes node.kind id) : q ∉ ready := by
  intro hmem
  obtain ⟨node', hnode', -, hzero⟩ := (h.ready_iff q).mp hmem
  obtain rfl := Option.some.inj (hnode.symm.trans hnode')
  exact missing_ne_zero_of_takes hnone htakes hzero

/-- A result leaves a plan in step. -/
theorem InStep.complete (hf : Forest leaves p₀.nodes roots) (h : InStep p₀ done ready taken p)
    {id : Nat} (hid : id < p₀.nodes.size) (hnone : done id = none) (result : α) :
    InStep p₀ (Function.update done id (some result)) (ready ++ (p.complete id result).2.toList)
      taken (p.complete id result).1 := by
  have hchild := Array.getElem?_eq_getElem hid
  have hcalled (q : Nat) : (p.complete id result).2 = some q ↔ ∃ node, p₀.nodes[q]? = some node ∧
      Takes node.kind id ∧ missing (Function.update done id (some result)) node.kind = 0 :=
    h.keeps.ready_iff hf hchild hnone
  refine ⟨h.keeps.complete hf hchild hnone result fun q node hnode htakes hmem =>
    h.not_mem_of_takes hnone hnode htakes (h.mem_ready q hmem),
    fun q hmem => List.mem_append_left _ (h.mem_ready q hmem), ?_, fun q => ?_⟩
  · refine List.nodup_append.mpr ⟨h.ready_nodup, by cases (p.complete id result).2 <;> simp, ?_⟩
    -- the join that is called now waited for this result, so it was not called before
    rintro q hq _ hq' rfl
    obtain ⟨node, hnode, htakes, -⟩ := (hcalled q).mp (Option.mem_toList.mp hq')
    exact h.not_mem_of_takes hnone hnode htakes hq
  · rw [List.mem_append, h.ready_iff, Option.mem_toList, hcalled, ← exists_or]
    refine exists_congr fun node => ?_
    rw [← and_or_left]
    refine and_congr_right fun hnode => ?_
    constructor
    · rintro (⟨htakes, hold⟩ | hnew)
      · exact ⟨htakes, (hf.missing_update_eq_zero_iff hnone hnode).mpr (.inl hold)⟩
      · exact ⟨⟨id, hnew.1⟩, hnew.2⟩
    · rintro ⟨htakes, hnew⟩
      refine ((hf.missing_update_eq_zero_iff hnone hnode).mp hnew).imp_left fun hold => ?_
      exact ⟨htakes, hold⟩

/-- A join that was called ready and whose inputs were not taken has both of them. -/
theorem InStep.exists_takeInputs (hf : Forest leaves p₀.nodes roots)
    (h : InStep p₀ done ready taken p) {q : Nat} (hready : q ∈ ready) (hfresh : q ∉ taken) :
    ∃ node left right a b p', p₀.nodes[q]? = some node ∧ node.kind = .join left right ∧
      done left = some a ∧ done right = some b ∧ p.takeInputs q = some ((a, b), p') ∧
      InStep p₀ done ready (taken ++ [q]) p' := by
  obtain ⟨node, hnode, ⟨id, htakes⟩, hzero⟩ := (h.ready_iff q).mp hready
  obtain ⟨left, right, a, b, p', hkind, ha, hb, htake, hkeeps⟩ :=
    h.keeps.exists_takeInputs hf hnode htakes hzero hfresh
  refine ⟨node, left, right, a, b, p', hnode, hkind, ha, hb, htake, ?_, ?_, h.ready_nodup,
    h.ready_iff⟩
  · exact hkeeps.congr fun j _ _ => by rw [List.mem_append, List.mem_singleton]
  · rw [List.forall_mem_append, List.forall_mem_singleton]
    exact ⟨h.mem_ready, hready⟩

/-- Every history leaves a plan in step. -/
theorem History.inStep (hf : Forest leaves p₀.nodes roots) (h : History p₀ done ready taken p) :
    InStep p₀ done ready taken p := by
  induction h with
  | start =>
    refine ⟨hf.keeps_none _, fun _ hmem => hmem, List.nodup_nil, fun q => ?_⟩
    simp only [List.not_mem_nil, false_iff, not_exists, not_and]
    rintro node - ⟨id, htakes⟩
    exact missing_ne_zero_of_takes rfl htakes
  | complete _ hid hnone result ih => exact ih.complete hf hid hnone result
  | takeInputs _ hready hfresh htake ih =>
    obtain ⟨-, -, -, a, b, p', -, -, -, -, htake', hstep⟩ :=
      ih.exists_takeInputs hf hready hfresh
    obtain ⟨-, rfl⟩ := Prod.mk.inj (Option.some.inj (htake'.symm.trans htake))
    exact hstep

/-! ### Every order of results -/

/-- A plan that serves its joins. A join counts its missing inputs, so there is something to count
down when the result of an input comes. The joins that were called ready are those with results for
both inputs, each called once, and in the end these are all joins. One of them whose inputs were not
taken has both results to give out. The result of the root stays. -/
structure Serves (p₀ : JoinPlan α) (done : Nat → Option α) (ready taken : List Nat)
    (p : JoinPlan α) : Prop where
  pending_eq : ∀ (q : Nat) (node : PlanNode α), p.nodes[q]? = some node →
    node.pending = missing done node.kind
  pending_pos : ∀ (id q : Nat), done id = none → p.nodes[id]?.bind PlanNode.parent = some q →
    ∃ node, p.nodes[q]? = some node ∧ 0 < node.pending
  ready_nodup : ready.Nodup
  ready_iff : ∀ q, q ∈ ready ↔ ∃ node left right, p₀.nodes[q]? = some node ∧
    node.kind = .join left right ∧ (done left).isSome ∧ (done right).isSome
  ready_perm : (∀ id < p₀.nodes.size, (done id).isSome) →
    ready.Perm (List.range' p₀.leaves p₀.joins)
  takeInputs_eq : ∀ q ∈ ready, q ∉ taken → ∃ node left right a b p', p₀.nodes[q]? = some node ∧
    node.kind = .join left right ∧ done left = some a ∧ done right = some b ∧
    p.takeInputs q = some ((a, b), p')
  rootResult_eq : p.rootResult = done p₀.root

/-- A join for which nothing is missing is one of two inputs with results. -/
theorem takes_and_missing_eq_zero_iff {kind : PlanNode.Kind} :
    ((∃ id, Takes kind id) ∧ missing done kind = 0) ↔
      ∃ left right, kind = .join left right ∧ (done left).isSome ∧ (done right).isSome := by
  rw [missing_eq_zero_iff]
  cases kind with
  | leaf segment => simp [Takes]
  | join left right => simp [Takes]

/-- A plan that is one tree serves its joins in every history. -/
theorem History.serves {strategy : ReductionStrategy} (ha : Arranged strategy leaves p₀)
    (hf : Forest leaves p₀.nodes [p₀.root]) (h : History p₀ done ready taken p) :
    Serves p₀ done ready taken p := by
  have hstep := h.inStep hf
  obtain ⟨held, hshows, -⟩ := hstep.keeps
  have hpending (q : Nat) (node : PlanNode α) (hnode : p.nodes[q]? = some node) :
      node.pending = missing done node.kind := by
    rw [hshows.nodes_eq] at hnode
    obtain ⟨node₀, -, rfl⟩ := Option.map_eq_some_iff.mp hnode
    rfl
  have hready (q : Nat) : q ∈ ready ↔ ∃ node left right, p₀.nodes[q]? = some node ∧
      node.kind = .join left right ∧ (done left).isSome ∧ (done right).isSome := by
    rw [hstep.ready_iff]
    simp only [takes_and_missing_eq_zero_iff, exists_and_left]
  refine ⟨hpending, fun id q hnone hparent => ?_, hstep.ready_nodup, hready, fun hall => ?_,
    fun q hmem hfresh => ?_, hstep.keeps.rootResult hf⟩
  · rw [hshows.parent_eq] at hparent
    obtain ⟨child, hchild, hparent⟩ := Option.bind_eq_some_iff.mp hparent
    obtain ⟨node, hnode, htakes⟩ := (hf.parent_iff id child q hchild).mp hparent
    refine ⟨_, by rw [hshows.nodes_eq, hnode]; rfl, ?_⟩
    exact Nat.pos_of_ne_zero (missing_ne_zero_of_takes hnone htakes)
  · -- without duplicates on either side, it is enough that every join has its inputs by now
    refine (List.perm_ext_iff_of_nodup hstep.ready_nodup (List.nodup_range' _)).mpr fun q => ?_
    rw [hready, List.mem_range'_1, ha.leaves_eq, ← ha.size_eq]
    constructor
    · rintro ⟨node, left, right, hnode, hkind, -⟩
      exact ⟨(hf.join_eq q node left right hnode hkind).1, (Array.getElem?_eq_some_iff.mp hnode).1⟩
    · rintro ⟨hlow, hhigh⟩
      have hnode := Array.getElem?_eq_getElem hhigh
      obtain ⟨hlt, -⟩ | ⟨-, left, right, hkind, hl, hr, -⟩ := ha.leaf_or_join q _ hnode
      · omega
      · exact ⟨_, left, right, hnode, hkind, hall left (by omega), hall right (by omega)⟩
  · obtain ⟨node, left, right, a, b, p', hnode, hkind, hleft, hright, htake, -⟩ :=
      hstep.exists_takeInputs hf hmem hfresh
    exact ⟨node, left, right, a, b, p', hnode, hkind, hleft, hright, htake⟩

/-- The plan for some segments is one tree over them, and serves its joins in whatever order the
nodes have their results and the inputs of joins that were called ready are taken out. -/
theorem make_serves (strategy : ReductionStrategy) (hpos : 0 < leaves) :
    Arranged strategy leaves (make strategy leaves : JoinPlan α) ∧
    ∀ (done : Nat → Option α) (ready taken : List Nat) (p : JoinPlan α),
      History (make strategy leaves) done ready taken p →
      Serves (make strategy leaves) done ready taken p := by
  have ha := arranged_make (α := α) strategy hpos
  exact ⟨ha, fun done ready taken p h => h.serves ha (make_spec strategy hpos).1⟩

/-- The plan for three segments, with the numbers of the segments for results. The results of the
segments come out of order and the inputs of the first join are taken late; then the last join has
its inputs, and in the end both joins were called ready. -/
theorem make_serves_three : ∃ done ready p p',
    History (make .tree 3 : JoinPlan (List Nat)) done ready [3] p ∧
    p.takeInputs 4 = some (([0, 1], [2]), p') ∧
    ∃ done' ready' p'', History (make .tree 3) done' ready' [3, 4] p'' ∧
      ready'.Perm [3, 4] ∧ p''.rootResult = some [0, 1, 2] := by
  have hkinds : (make .tree 3 : JoinPlan (List Nat)).nodes.map PlanNode.kind =
      #[.leaf 0, .leaf 1, .leaf 2, .join 0 1, .join 3 2] := by decide +kernel
  have hroot : (make .tree 3 : JoinPlan (List Nat)).root = 4 := by decide +kernel
  have hsize : (make .tree 3 : JoinPlan (List Nat)).nodes.size = 5 := by
    simpa using congrArg Array.size hkinds
  have hnode {q : Nat} {kind : PlanNode.Kind}
      (h : #[PlanNode.Kind.leaf 0, .leaf 1, .leaf 2, .join 0 1, .join 3 2][q]? = some kind) :
      ∃ node, (make .tree 3 : JoinPlan (List Nat)).nodes[q]? = some node ∧ node.kind = kind := by
    rw [← Option.map_eq_some_iff, ← Array.getElem?_map, hkinds, h]
  obtain ⟨node₃, hnode₃, hkind₃⟩ := hnode (q := 3) rfl
  obtain ⟨node₄, hnode₄, hkind₄⟩ := hnode (q := 4) rfl
  obtain ⟨ha, hserves⟩ := make_serves (α := List Nat) .tree (show 0 < 3 by decide)
  generalize (make .tree 3 : JoinPlan (List Nat)) = p₀ at *
  -- the segments have their results out of order
  have hstart : History p₀ _ [] [] p₀ := .start
  have hsegments := ((hstart.complete (show 1 < _ by omega) rfl [1]).complete
    (show 0 < _ by omega) rfl [0]).complete (show 2 < _ by omega) rfl [2]
  have hs := hserves _ _ _ _ hsegments
  have hfirst := (hs.ready_iff 3).mpr ⟨node₃, 0, 1, hnode₃, hkind₃, rfl, rfl⟩
  obtain ⟨-, -, -, a, b, p₁, -, -, -, -, htake⟩ := hs.takeInputs_eq 3 hfirst (by simp)
  have hjoined := (hsegments.takeInputs hfirst (by simp) htake).complete (show 3 < _ by omega) rfl
    [0, 1]
  have hs' := hserves _ _ _ _ hjoined
  have hlast := (hs'.ready_iff 4).mpr ⟨node₄, 3, 2, hnode₄, hkind₄, rfl, rfl⟩
  obtain ⟨node, left, right, c, d, p₂, hnode', hkind, hleft, hright, htake'⟩ :=
    hs'.takeInputs_eq 4 hlast (by simp)
  obtain rfl := Option.some.inj (hnode₄.symm.trans hnode')
  obtain ⟨rfl, rfl⟩ := PlanNode.Kind.join.inj (hkind₄.symm.trans hkind)
  obtain rfl : [0, 1] = c := Option.some.inj hleft
  obtain rfl : [2] = d := Option.some.inj hright
  have hended := (hjoined.takeInputs hlast (by simp) htake').complete (show 4 < _ by omega) rfl
    [0, 1, 2]
  have hs'' := hserves _ _ _ _ hended
  refine ⟨_, _, _, _, hjoined, htake', _, _, _, hended, ?_, ?_⟩
  · have hperm := hs''.ready_perm (by rw [hsize]; decide)
    rwa [ha.joins_eq, ha.leaves_eq] at hperm
  · rw [hs''.rootResult_eq, hroot]
    rfl

end ReplayVM.JoinPlan
