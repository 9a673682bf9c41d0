import Mathlib.Logic.Function.Basic
import ReplayVM.Proofs.JoinPlans

/-!
# Progress of join plans

While a session runs, the results of nodes come into its plan one by one. What the plan then looks
like depends only on which nodes have a result, not on the order in which the results came: a join
waits for those of its inputs that have none, and the result of a node is kept until the join that
it is an input of has all it needs.

## Main definitions

* `JoinPlan.missing`: the inputs that a join waits for.
* `JoinPlan.Keeps`: a plan while some nodes have their results and some joins have taken theirs.
* `JoinPlan.At`: a plan from which every join has taken its inputs that could.

## Main results

* `JoinPlan.Keeps.complete`, `JoinPlan.Keeps.takeInputs`: a result is kept until it is taken.
* `JoinPlan.Forest.at_none`: no node of a new plan has a result.
* `JoinPlan.At.complete_waiting`, `JoinPlan.At.complete_ready`: the result of a node is kept, unless
  it makes a join ready, whose inputs the plan then gives out.
-/

namespace ReplayVM.JoinPlan

variable {α : Type} {p₀ p : JoinPlan α} {leaves : Nat} {roots : List Nat}
  {done held : Nat → Option α}

/-! ### Missing inputs -/

/-- The number of inputs of a node that have no result. -/
def missing (done : Nat → Option α) : PlanNode.Kind → Nat
  | .leaf _ => 0
  | .join left right => (if (done left).isNone then 1 else 0) + if (done right).isNone then 1 else 0

/-- Nothing is missing once every input has a result. -/
theorem missing_eq_zero_iff {kind : PlanNode.Kind} :
    missing done kind = 0 ↔ ∀ id, Takes kind id → (done id).isSome := by
  cases kind with
  | leaf segment => simp [missing, Takes]
  | join left right =>
    cases hl : done left <;> cases hr : done right <;> simp [missing, Takes, hl, hr]

/-- An input without a result is missing. -/
theorem missing_ne_zero_of_takes {kind : PlanNode.Kind} {id : Nat} (hnone : done id = none)
    (htakes : Takes kind id) : missing done kind ≠ 0 := by
  intro hzero
  have := missing_eq_zero_iff.mp hzero id htakes
  simp [hnone] at this

/-- The result of an input reduces what is missing. -/
theorem missing_update_of_takes (result : α) {kind : PlanNode.Kind} {id : Nat}
    (hne : ∀ left right, kind = .join left right → left ≠ right) (hnone : done id = none)
    (htakes : Takes kind id) :
    missing done kind = missing (Function.update done id (some result)) kind + 1 := by
  cases kind with
  | leaf segment => exact htakes.elim
  | join left right =>
    have := hne left right rfl
    obtain rfl | rfl := htakes
    · simp [missing, hnone, Function.update_of_ne this.symm, Nat.add_comm]
    · simp [missing, hnone, Function.update_of_ne this]

/-- The result of another node leaves what is missing. -/
theorem missing_update_of_not_takes {kind : PlanNode.Kind} {id : Nat} {result : α}
    (htakes : ¬Takes kind id) :
    missing (Function.update done id (some result)) kind = missing done kind := by
  cases kind with
  | leaf segment => rfl
  | join left right =>
    rw [Takes, not_or] at htakes
    rw [missing, missing, Function.update_of_ne (Ne.symm htakes.1),
      Function.update_of_ne (Ne.symm htakes.2)]

/-- A result makes a node ready if it was the last one that was missing. -/
theorem Forest.missing_update_eq_zero_iff (hf : Forest leaves p₀.nodes roots) {id q : Nat}
    {result : α} (hnone : done id = none) {node : PlanNode α} (hnode : p₀.nodes[q]? = some node) :
    missing (Function.update done id (some result)) node.kind = 0 ↔ missing done node.kind = 0 ∨
      (Takes node.kind id ∧ missing (Function.update done id (some result)) node.kind = 0) := by
  by_cases htakes : Takes node.kind id
  · have := missing_update_of_takes result (hf.ne_of_join hnode) hnone htakes
    simp only [htakes, true_and]
    omega
  · rw [missing_update_of_not_takes htakes]
    simp [htakes]

/-! ### Plans with results -/

/-- A plan like another one, in which some nodes have had their results and some of these are still
held. -/
structure Shows (p₀ : JoinPlan α) (done held : Nat → Option α) (p : JoinPlan α) : Prop where
  root_eq : p.root = p₀.root
  nodes_eq : ∀ id : Nat, p.nodes[id]? = p₀.nodes[id]?.map fun node =>
    { node with pending := missing done node.kind, result := held id }

/-- A result goes to its node, and the parent waits for one input less. -/
theorem getElem?_complete (id : Nat) (result : α) (j : Nat) :
    (p.complete id result).1.nodes[j]? = p.nodes[j]?.map fun node =>
      { node with
        pending := if p.nodes[id]?.bind PlanNode.parent = some j then node.pending - 1
          else node.pending
        result := if id = j then some result else node.result } := by
  rw [complete]
  cases p.nodes[id]?.bind PlanNode.parent with
  | none =>
    cases hj : p.nodes[j]? <;> by_cases hid : id = j <;> simp [Array.getElem?_modify, hj, hid]
  | some parent =>
    cases hj : p.nodes[j]? <;> by_cases hid : id = j <;> by_cases hp : parent = j <;>
      simp [Array.getElem?_modify, hj, hid, hp]

theorem complete_root (id : Nat) (result : α) : (p.complete id result).1.root = p.root := by
  rw [complete]
  split <;> rfl

/-- A node is ready once its last missing input has a result. -/
theorem complete_ready_iff {id q : Nat} {result : α} :
    (p.complete id result).2 = some q ↔ p.nodes[id]?.bind PlanNode.parent = some q ∧
      ∃ node, (p.complete id result).1.nodes[q]? = some node ∧ node.pending = 0 := by
  rw [complete]
  cases p.nodes[id]?.bind PlanNode.parent with
  | none => simp
  | some parent =>
    simp only [Option.any_eq_true, decide_eq_true_eq, Option.ite_none_right_eq_some,
      Option.some.injEq]
    constructor
    · rintro ⟨hready, rfl⟩
      exact ⟨rfl, hready⟩
    · rintro ⟨rfl, hready⟩
      exact ⟨hready, rfl⟩

/-- Results leave the parents of nodes as they are. -/
theorem Shows.parent_eq (h : Shows p₀ done held p) (id : Nat) :
    p.nodes[id]?.bind PlanNode.parent = p₀.nodes[id]?.bind PlanNode.parent := by
  rw [h.nodes_eq]
  cases p₀.nodes[id]? <;> rfl

/-- A result that is put into a plan is held. -/
theorem Shows.complete (hf : Forest leaves p₀.nodes roots) (h : Shows p₀ done held p) {id : Nat}
    {child : PlanNode α} (hchild : p₀.nodes[id]? = some child) (hnone : done id = none)
    (result : α) :
    Shows p₀ (Function.update done id (some result)) (Function.update held id (some result))
      (p.complete id result).1 := by
  have hparent : p.nodes[id]?.bind PlanNode.parent = child.parent := by
    rw [h.parent_eq, hchild, Option.bind_some]
  refine ⟨(complete_root id result).trans h.root_eq, fun j => ?_⟩
  rw [getElem?_complete, hparent, h.nodes_eq, Option.map_map]
  cases hj : p₀.nodes[j]? with
  | none => rfl
  | some node =>
    have hresult : (if id = j then some result else held j) =
        Function.update held id (some result) j := by
      simp only [Function.update_apply, eq_comm]
    have hpending : (if child.parent = some j then missing done node.kind - 1
        else missing done node.kind) =
        missing (Function.update done id (some result)) node.kind := by
      have hiff := hf.parent_iff id child j hchild
      by_cases htakes : Takes node.kind id
      · rw [if_pos (hiff.mpr ⟨node, hj, htakes⟩),
          missing_update_of_takes result (hf.ne_of_join hj) hnone htakes,
          Nat.add_sub_cancel]
      · rw [missing_update_of_not_takes htakes, if_neg]
        intro hp
        obtain ⟨node', hnode', htakes'⟩ := hiff.mp hp
        obtain rfl := Option.some.inj (hj.symm.trans hnode')
        exact htakes htakes'
    simp only [Option.map_some, Function.comp_apply, hresult, hpending]

/-- A plan calls a join ready for the result that was the last one missing. -/
theorem Shows.ready_iff (hf : Forest leaves p₀.nodes roots) (h : Shows p₀ done held p) {id q : Nat}
    {child : PlanNode α} (hchild : p₀.nodes[id]? = some child) (hnone : done id = none)
    {result : α} : (p.complete id result).2 = some q ↔ ∃ node, p₀.nodes[q]? = some node ∧
      Takes node.kind id ∧ missing (Function.update done id (some result)) node.kind = 0 := by
  rw [complete_ready_iff, h.parent_eq, hchild, Option.bind_some, hf.parent_iff id child q hchild,
    (h.complete hf hchild hnone result).nodes_eq]
  constructor
  · rintro ⟨⟨node, hnode, htakes⟩, node', hnode', hready⟩
    rw [hnode] at hnode'
    obtain rfl := Option.some.inj hnode'
    exact ⟨node, hnode, htakes, hready⟩
  · rintro ⟨node, hnode, htakes, hready⟩
    exact ⟨⟨node, hnode, htakes⟩, _, by rw [hnode]; rfl, hready⟩

/-- A result that is held can be taken out. -/
theorem Shows.take (h : Shows p₀ done held p) {id : Nat} {node : PlanNode α}
    (hnode : p₀.nodes[id]? = some node) {result : α} (hheld : held id = some result) :
    ∃ p', p.take id = some (result, p') ∧ Shows p₀ done (Function.update held id none) p' := by
  refine ⟨{ p with nodes := p.nodes.modify id fun node => { node with result := none } }, ?_,
    h.root_eq, fun j => ?_⟩
  · rw [JoinPlan.take, h.nodes_eq, hnode]
    simp [hheld]
  · simp only [Array.getElem?_modify, h.nodes_eq]
    cases hj : p₀.nodes[j]? with
    | none => simp
    | some node =>
      by_cases hid : id = j
      · simp [hid]
      · simp [hid, Function.update_of_ne (Ne.symm hid)]

/-- The results of both inputs of a join can be taken out. -/
theorem Shows.takeInputs (hf : Forest leaves p₀.nodes roots) (h : Shows p₀ done held p) {id : Nat}
    {node : PlanNode α} (hnode : p₀.nodes[id]? = some node) {left right : Nat}
    (hkind : node.kind = .join left right) {a b : α} (hleft : held left = some a)
    (hright : held right = some b) :
    ∃ p', p.takeInputs id = some ((a, b), p') ∧
      Shows p₀ done (Function.update (Function.update held left none) right none) p' := by
  obtain ⟨hid, hl, hr, hne, -⟩ := hf.join_eq id node left right hnode hkind
  have hlt := (Array.getElem?_eq_some_iff.mp hnode).1
  obtain ⟨p₁, htake₁, hshows₁⟩ := h.take (Array.getElem?_eq_getElem (Nat.lt_trans hl hlt)) hleft
  have hright' : Function.update held left none right = some b := by
    rw [Function.update_of_ne hne.symm, hright]
  obtain ⟨p₂, htake₂, hshows₂⟩ :=
    hshows₁.take (Array.getElem?_eq_getElem (Nat.lt_trans hr hlt)) hright'
  refine ⟨p₂, ?_, hshows₂⟩
  rw [JoinPlan.takeInputs, h.nodes_eq, hnode]
  simp [hkind, htake₁, htake₂]

/-! ### Results that wait -/

/-- A plan while some nodes have their results. A result is held until the inputs of the join that
it is for are taken. -/
def Keeps (p₀ : JoinPlan α) (done : Nat → Option α) (taken : Nat → Prop) (p : JoinPlan α) : Prop :=
  ∃ held, Shows p₀ done held p ∧ ∀ id r, held id = some r ↔ done id = some r ∧
    ∀ (q : Nat) (node : PlanNode α), p₀.nodes[q]? = some node → Takes node.kind id → ¬taken q

variable {taken taken' : Nat → Prop}

theorem Keeps.congr (h : Keeps p₀ done taken p)
    (hsame : ∀ (q : Nat) (node : PlanNode α), p₀.nodes[q]? = some node → (taken q ↔ taken' q)) :
    Keeps p₀ done taken' p := by
  obtain ⟨held, hshows, hheld⟩ := h
  refine ⟨held, hshows, fun id r => (hheld id r).trans (and_congr_right fun _ => ?_)⟩
  exact forall_congr' fun q => forall_congr' fun node => forall_congr' fun hnode =>
    imp_congr_right fun _ => not_congr (hsame q node hnode)

/-- A plan calls a join ready for the result that was the last one missing. -/
theorem Keeps.ready_iff (hf : Forest leaves p₀.nodes roots) (h : Keeps p₀ done taken p)
    {id q : Nat} {child : PlanNode α} (hchild : p₀.nodes[id]? = some child)
    (hnone : done id = none) {result : α} : (p.complete id result).2 = some q ↔
      ∃ node, p₀.nodes[q]? = some node ∧ Takes node.kind id ∧
        missing (Function.update done id (some result)) node.kind = 0 := by
  obtain ⟨held, hshows, -⟩ := h
  exact hshows.ready_iff hf hchild hnone

/-- A new result is held, as the join that it is for still waits for it. -/
theorem Keeps.complete (hf : Forest leaves p₀.nodes roots) (h : Keeps p₀ done taken p) {id : Nat}
    {child : PlanNode α} (hchild : p₀.nodes[id]? = some child) (hnone : done id = none)
    (result : α) (hwaits : ∀ (q : Nat) (node : PlanNode α), p₀.nodes[q]? = some node →
      Takes node.kind id → ¬taken q) :
    Keeps p₀ (Function.update done id (some result)) taken (p.complete id result).1 := by
  obtain ⟨held, hshows, hheld⟩ := h
  refine ⟨_, hshows.complete hf hchild hnone result, fun j x => ?_⟩
  by_cases hj : j = id
  · subst hj
    simp only [Function.update_self, Option.some.injEq, iff_self_and]
    exact fun _ => hwaits
  · rw [Function.update_of_ne hj, Function.update_of_ne hj, hheld]

/-- A join whose inputs have results that were not taken has them taken. -/
theorem Keeps.takeInputs (hf : Forest leaves p₀.nodes roots) (h : Keeps p₀ done taken p) {q : Nat}
    {node : PlanNode α} (hnode : p₀.nodes[q]? = some node) {left right : Nat}
    (hkind : node.kind = .join left right) {a b : α} (hleft : done left = some a)
    (hright : done right = some b) (hfresh : ¬taken q) :
    ∃ p', p.takeInputs q = some ((a, b), p') ∧ Keeps p₀ done (fun j => taken j ∨ j = q) p' := by
  obtain ⟨held, hshows, hheld⟩ := h
  -- this join is the only one that takes its inputs
  have hinput {j : Nat} {x : α} (hj : Takes node.kind j) (hx : done j = some x) :
      held j = some x := by
    refine (hheld j x).mpr ⟨hx, fun q' node' hnode' htakes' => ?_⟩
    rwa [hf.takes_unique hnode hnode' hj htakes']
  have htakes {j : Nat} : Takes node.kind j ↔ j = left ∨ j = right := by rw [hkind, Takes]
  obtain ⟨p', htake, hshows'⟩ := hshows.takeInputs hf hnode hkind
    (hinput (htakes.mpr (.inl rfl)) hleft) (hinput (htakes.mpr (.inr rfl)) hright)
  refine ⟨p', htake, _, hshows', fun j x => ?_⟩
  by_cases hj : j = left ∨ j = right
  · have hnone : Function.update (Function.update held left none) right none j = none := by
      by_cases hjright : j = right
      · simp [hjright]
      · rw [Function.update_of_ne hjright, hj.resolve_right hjright, Function.update_self]
    simp only [hnone, reduceCtorEq, false_iff, not_and, not_forall]
    exact fun _ => ⟨q, node, hnode, htakes.mpr hj, fun h => h (.inr rfl)⟩
  · have hne := not_or.mp hj
    rw [Function.update_of_ne hne.2, Function.update_of_ne hne.1, hheld]
    refine and_congr_right fun _ => forall_congr' fun q' => forall_congr' fun node' =>
      forall_congr' fun hnode' => imp_congr_right fun hj' => not_congr (or_iff_left ?_).symm
    rintro rfl
    obtain rfl := Option.some.inj (hnode.symm.trans hnode')
    exact hj (htakes.mp hj')

/-- A join for which nothing is missing has two results, which it takes if it has not yet. -/
theorem Keeps.exists_takeInputs (hf : Forest leaves p₀.nodes roots) (h : Keeps p₀ done taken p)
    {id q : Nat} {node : PlanNode α} (hnode : p₀.nodes[q]? = some node)
    (htakes : Takes node.kind id) (hready : missing done node.kind = 0) (hfresh : ¬taken q) :
    ∃ left right a b p', node.kind = .join left right ∧ done left = some a ∧
      done right = some b ∧ p.takeInputs q = some ((a, b), p') ∧
      Keeps p₀ done (fun j => taken j ∨ j = q) p' := by
  have hinput := missing_eq_zero_iff.mp hready
  cases hkind : node.kind with
  | leaf segment =>
    rw [hkind] at htakes
    exact htakes.elim
  | join left right =>
    rw [hkind] at hinput
    obtain ⟨a, ha⟩ := Option.isSome_iff_exists.mp (hinput left (.inl rfl))
    obtain ⟨b, hb⟩ := Option.isSome_iff_exists.mp (hinput right (.inr rfl))
    obtain ⟨p', htake, hkeeps⟩ := h.takeInputs hf hnode hkind ha hb hfresh
    exact ⟨left, right, a, b, p', rfl, ha, hb, htake, hkeeps⟩

/-- The result of the root is held to the end. -/
theorem Keeps.rootResult (hf : Forest leaves p₀.nodes [p₀.root]) (h : Keeps p₀ done taken p) :
    p.rootResult = done p₀.root := by
  obtain ⟨held, hshows, hheld⟩ := h
  obtain ⟨node, hnode, hroot⟩ := (hf.root_iff p₀.root).mp (by simp)
  have hsame : held p₀.root = done p₀.root := by
    refine Option.ext fun x => (hheld _ x).trans (and_iff_left fun q node' hnode' htakes => ?_)
    have := hf.parent_of_takes hnode hnode' htakes
    simp [hroot] at this
  rw [JoinPlan.rootResult, hshows.root_eq, JoinPlan.take, hshows.nodes_eq, hnode, ← hsame]
  cases held p₀.root <;> simp

/-! ### Progress -/

/-- A plan while some nodes have their results, those held that are not used yet. -/
def At (p₀ : JoinPlan α) (done : Nat → Option α) (p : JoinPlan α) : Prop :=
  ∃ held, Shows p₀ done held p ∧ ∀ id r, held id = some r ↔ done id = some r ∧
    ∀ (q : Nat) (node : PlanNode α), p₀.nodes[q]? = some node → Takes node.kind id →
      missing done node.kind ≠ 0

/-- A node for which nothing is missing. -/
def Supplied (p₀ : JoinPlan α) (done : Nat → Option α) (q : Nat) : Prop :=
  ∃ node, p₀.nodes[q]? = some node ∧ missing done node.kind = 0

theorem supplied_iff {q : Nat} {node : PlanNode α} (hnode : p₀.nodes[q]? = some node) :
    Supplied p₀ done q ↔ missing done node.kind = 0 := by
  simp [Supplied, hnode]

/-- The results that are used are those that nothing is missing beside. -/
theorem at_iff_keeps : At p₀ done p ↔ Keeps p₀ done (Supplied p₀ done) p := by
  refine exists_congr fun held => and_congr_right fun _ => forall_congr' fun id =>
    forall_congr' fun r => iff_congr Iff.rfl (and_congr_right fun _ => ?_)
  exact forall_congr' fun q => forall_congr' fun node => forall_congr' fun hnode =>
    imp_congr_right fun _ => not_congr (supplied_iff hnode).symm

/-- No node of a new plan has a result. -/
theorem Forest.keeps_none (hf : Forest leaves p₀.nodes roots) (taken : Nat → Prop) :
    Keeps p₀ (fun _ => none) taken p₀ := by
  refine ⟨fun _ => none, ⟨rfl, fun id => ?_⟩, by simp⟩
  cases hnode : p₀.nodes[id]? with
  | none => rfl
  | some node =>
    have hresult := hf.result_eq id node hnode
    have hpending : node.pending = missing (fun _ => (none : Option α)) node.kind := by
      cases hkind : node.kind with
      | leaf segment => exact (hf.leaf_eq id node segment hnode hkind).2.2
      | join left right => exact (hf.join_eq id node left right hnode hkind).2.2.2.2
    rw [Option.map_some, ← hpending, ← hresult]

theorem Forest.at_none (hf : Forest leaves p₀.nodes roots) : At p₀ (fun _ => none) p₀ :=
  at_iff_keeps.mpr (hf.keeps_none _)

/-- The node that a plan calls ready after a result has it as the last missing input. -/
theorem At.ready_of_complete (hf : Forest leaves p₀.nodes roots) (h : At p₀ done p) {id q : Nat}
    {child : PlanNode α} (hchild : p₀.nodes[id]? = some child) (hnone : done id = none)
    {result : α} (hq : (p.complete id result).2 = some q) :
    ∃ node, p₀.nodes[q]? = some node ∧ Takes node.kind id ∧
      missing (Function.update done id (some result)) node.kind = 0 :=
  ((at_iff_keeps.mp h).ready_iff hf hchild hnone).mp hq

/-- A new result is kept with the others, until the inputs of the join that it is for are taken. -/
theorem At.keeps_complete (hf : Forest leaves p₀.nodes roots) (h : At p₀ done p) {id : Nat}
    {child : PlanNode α} (hchild : p₀.nodes[id]? = some child) (hnone : done id = none)
    (result : α) : Keeps p₀ (Function.update done id (some result)) (Supplied p₀ done)
      (p.complete id result).1 :=
  (at_iff_keeps.mp h).complete hf hchild hnone result fun _ _ hnode htakes hsupplied =>
    missing_ne_zero_of_takes hnone htakes ((supplied_iff hnode).mp hsupplied)

/-- As long as no join becomes ready, a new result is kept with the others. -/
theorem At.complete_waiting (hf : Forest leaves p₀.nodes roots) (h : At p₀ done p) {id : Nat}
    {child : PlanNode α} (hchild : p₀.nodes[id]? = some child) (hnone : done id = none)
    {result : α} (hwait : ∀ (q : Nat) (node : PlanNode α), p₀.nodes[q]? = some node →
      Takes node.kind id → missing (Function.update done id (some result)) node.kind ≠ 0) :
    (p.complete id result).2 = none ∧
      At p₀ (Function.update done id (some result)) (p.complete id result).1 := by
  refine ⟨Option.eq_none_iff_forall_ne_some.mpr fun q hq => ?_, ?_⟩
  · obtain ⟨node, hnode, htakes, hready⟩ := h.ready_of_complete hf hchild hnone hq
    exact hwait q node hnode htakes hready
  · refine at_iff_keeps.mpr ((h.keeps_complete hf hchild hnone result).congr fun q node hnode => ?_)
    rw [supplied_iff hnode, supplied_iff hnode, hf.missing_update_eq_zero_iff hnone hnode]
    exact (or_iff_left fun hready => hwait q node hnode hready.1 hready.2).symm

/-- The last result that a join waits for makes it ready, and the plan gives out its inputs. -/
theorem At.complete_ready (hf : Forest leaves p₀.nodes roots) (h : At p₀ done p) {id q : Nat}
    {child node : PlanNode α} (hchild : p₀.nodes[id]? = some child) (hnone : done id = none)
    {result : α} (hnode : p₀.nodes[q]? = some node) (htakes : Takes node.kind id)
    (hready : missing (Function.update done id (some result)) node.kind = 0) :
    (p.complete id result).2 = some q ∧ ∃ left right a b p', node.kind = .join left right ∧
      Function.update done id (some result) left = some a ∧
      Function.update done id (some result) right = some b ∧
      (p.complete id result).1.takeInputs q = some ((a, b), p') ∧
      At p₀ (Function.update done id (some result)) p' := by
  refine ⟨((at_iff_keeps.mp h).ready_iff hf hchild hnone).mpr ⟨node, hnode, htakes, hready⟩, ?_⟩
  have hfresh : ¬Supplied p₀ done q := fun hsupplied =>
    missing_ne_zero_of_takes hnone htakes ((supplied_iff hnode).mp hsupplied)
  obtain ⟨left, right, a, b, p', hkind, ha, hb, htake, hkeeps⟩ :=
    (h.keeps_complete hf hchild hnone result).exists_takeInputs hf hnode htakes hready hfresh
  refine ⟨left, right, a, b, p', hkind, ha, hb, htake,
    at_iff_keeps.mpr (hkeeps.congr fun j other hother => ?_)⟩
  rw [supplied_iff hother, supplied_iff hother, hf.missing_update_eq_zero_iff hnone hother]
  refine or_congr_right ⟨?_, fun hnew => hf.takes_unique hnode hother htakes hnew.1⟩
  rintro rfl
  obtain rfl := Option.some.inj (hnode.symm.trans hother)
  exact ⟨htakes, hready⟩

theorem At.rootResult (hf : Forest leaves p₀.nodes [p₀.root]) (h : At p₀ done p) :
    p.rootResult = done p₀.root :=
  (at_iff_keeps.mp h).rootResult hf

end ReplayVM.JoinPlan
