import Mathlib.Data.List.Forall2
import Mathlib.Data.List.Perm.Basic
import Mathlib.Tactic.Common
import ReplayVM.Proofs.PairingRounds
import ReplayVM.Schedule.Plan

/-!
# The shape of join plans

A plan is made by appending joins to the nodes of the segments, each behind its two inputs, until a
single node has no parent. While it is made, the nodes without a parent are the roots of a forest,
and every join takes two of them. Forgetting the numbers, a root is a binary tree over the segments;
the plan makes the same tree as the reduction of a list of receipts, odd ones that pass to the next
round included.

## Main definitions

* `JoinShape`, `JoinShape.eval`: how segments are joined, and what comes out.
* `ReductionStrategy.shape`: the shape of a reduction.
* `JoinPlan.Has`: the shape at a node.
* `JoinPlan.Forest`: nodes that are linked with their inputs, and the roots among them.

## Main results

* `JoinShape.eval_shape`: the shape of a reduction gives what the reduction gives.
* `JoinPlan.make_spec`: a plan is a forest with one root, of this shape.
-/

namespace ReplayVM

open Pairing

/-- A list is mapped if every item is. -/
theorem mapM_eq_some_iff {α β : Type} {f : α → Option β} {as : List α} {bs : List β} :
    as.mapM f = some bs ↔ List.Forall₂ (fun a b => f a = some b) as bs := by
  induction as generalizing bs with
  | nil => simp [eq_comm]
  | cons a as ih =>
    rw [List.mapM_cons]
    cases bs with
    | nil => cases f a <;> cases as.mapM f <;> simp
    | cons b bs =>
      rw [List.forall₂_cons, ← ih]
      cases f a <;> cases as.mapM f <;> simp

/-! ### Shapes -/

/-- How segments are joined: a binary tree over their numbers. -/
inductive JoinShape where
  | leaf (segment : Nat)
  | join (left right : JoinShape)

namespace JoinShape

variable {leaf : Nat → Option SuccinctReceipt}

/-- The receipt that a shape gives, if the segments have receipts and these can be joined. -/
def eval (leaf : Nat → Option SuccinctReceipt) : JoinShape → Option SuccinctReceipt
  | .leaf segment => leaf segment
  | .join left right =>
    (left.eval leaf).bind fun a => (right.eval leaf).bind fun b => (a.join b).toOption

/-- Joins neighbours for a number of rounds. -/
def ofRounds : (rounds : Nat) → List JoinShape → JoinShape
  | 0, ts => ts.headD (.leaf 0)
  | rounds + 1, ts => ofRounds rounds (pairUp .join ts)

/-- One round of joins gives what one round of the reduction gives. -/
theorem mapM_eval_pairUp : ∀ ts : List JoinShape, (pairUp .join ts).mapM (eval leaf) =
    (ts.mapM (eval leaf)).bind fun rs => (pairUpM SuccinctReceipt.join rs).toOption
  | [] => rfl
  | [a] => by
    cases h : a.eval leaf <;> simp [pairUp, pairUpM, h, Except.toOption]
  | a :: b :: ts => by
    have ih := mapM_eval_pairUp ts
    simp only [pairUp, List.mapM_cons, eval, ih]
    cases a.eval leaf with
    | none => rfl
    | some x =>
      cases b.eval leaf with
      | none => rfl
      | some y =>
        cases ts.mapM (eval leaf) with
        | none => cases h : x.join y <;> simp [Except.toOption]
        | some rs =>
          cases h : x.join y with
          | error cause => simp [pairUpM, h, Except.toOption, bind, Except.bind]
          | ok z =>
            cases h' : pairUpM SuccinctReceipt.join rs <;>
              simp [pairUpM, h, h', Except.toOption, bind, Except.bind, pure, Except.pure]

/-- Rounds of joins give what the rounds of the reduction give. -/
theorem eval_ofRounds {rounds : Nat} {ts : List JoinShape} (hne : ts ≠ [])
    (hlen : ts.length ≤ 1 <<< rounds) : (ofRounds rounds ts).eval leaf =
      (ts.mapM (eval leaf)).bind fun rs => (SuccinctReceipt.reduceRounds rounds rs).toOption := by
  induction rounds generalizing ts with
  | zero =>
    obtain ⟨t, ts, rfl⟩ := List.exists_cons_of_ne_nil hne
    obtain rfl : ts = [] := by
      simp only [List.length_cons, Nat.shiftLeft_zero] at hlen
      exact List.eq_nil_of_length_eq_zero (by omega)
    cases h : t.eval leaf <;>
      simp [ofRounds, h, SuccinctReceipt.reduceRounds, Except.toOption]
  | succ rounds ih =>
    have hpos := List.length_pos_iff.mpr hne
    have hpair := length_pairUp JoinShape.join ts
    rw [Nat.shiftLeft_succ] at hlen
    rw [ofRounds, ih (List.length_pos_iff.mp (by omega)) (by omega), mapM_eval_pairUp]
    cases ts.mapM (eval leaf) with
    | none => rfl
    | some rs =>
      cases h : pairUpM SuccinctReceipt.join rs <;>
        simp [SuccinctReceipt.reduceRounds, h, Except.toOption, bind, Except.bind]

/-- Joining one shape after the other gives what the reduction from the left gives. -/
theorem eval_foldl (t : JoinShape) (ts : List JoinShape) : (ts.foldl .join t).eval leaf =
    (t.eval leaf).bind fun r => (ts.mapM (eval leaf)).bind fun rs =>
      (SuccinctReceipt.reduceFold r rs).toOption := by
  induction ts generalizing t with
  | nil => cases h : t.eval leaf <;> simp [h, SuccinctReceipt.reduceFold, Except.toOption]
  | cons next ts ih =>
    rw [List.foldl_cons, ih, List.mapM_cons, eval]
    cases t.eval leaf with
    | none => rfl
    | some r =>
      cases next.eval leaf with
      | none => rfl
      | some x =>
        cases ts.mapM (eval leaf) with
        | none => cases h : r.join x <;> simp [Except.toOption]
        | some rs =>
          cases h : r.join x <;>
            simp [SuccinctReceipt.reduceFold, h, Except.toOption, bind, Except.bind]

end JoinShape

/-- The shape in which a number of segments are joined. -/
def ReductionStrategy.shape (strategy : ReductionStrategy) (leaves : Nat) : JoinShape :=
  let ts := (List.range leaves).map JoinShape.leaf
  match strategy with
  | .fold => (ts.drop 1).foldl .join (.leaf 0)
  | .tree => .ofRounds (rounds leaves) ts

/-- The shape of a reduction gives what the reduction gives. -/
theorem JoinShape.eval_shape {leaf : Nat → Option SuccinctReceipt} (strategy : ReductionStrategy)
    {leaves : Nat} (hpos : 0 < leaves) : (strategy.shape leaves).eval leaf =
      ((List.range leaves).mapM leaf).bind fun rs =>
        (SuccinctReceipt.reduce strategy rs).toOption := by
  have hleaves : ((List.range leaves).map JoinShape.leaf).mapM (eval leaf) =
      (List.range leaves).mapM leaf := by
    rw [List.mapM_map]
    rfl
  obtain ⟨n, rfl⟩ : ∃ n, leaves = n + 1 := ⟨leaves - 1, by omega⟩
  have hlen {rs : List SuccinctReceipt} (h : (List.range (n + 1)).mapM leaf = some rs) :
      rs.length = n + 1 := by
    rw [← (mapM_eq_some_iff.mp h).length_eq, List.length_range]
  cases strategy with
  | fold =>
    have hcons : (List.range (n + 1)).map JoinShape.leaf =
        .leaf 0 :: ((List.range (n + 1)).map JoinShape.leaf).drop 1 := by
      simp [List.range_succ_eq_map]
    rw [hcons, List.mapM_cons] at hleaves
    rw [ReductionStrategy.shape, eval_foldl, ← hleaves]
    cases eval leaf (.leaf 0) with
    | none => rfl
    | some r =>
      cases (((List.range (n + 1)).map JoinShape.leaf).drop 1).mapM (eval leaf) <;> rfl
  | tree =>
    have hne : (List.range (n + 1)).map JoinShape.leaf ≠ [] := by simp
    rw [ReductionStrategy.shape, eval_ofRounds hne (by simpa using le_shiftLeft_rounds (n + 1)),
      hleaves]
    cases h : (List.range (n + 1)).mapM leaf with
    | none => rfl
    | some rs =>
      cases rs with
      | nil => simpa using hlen h
      | cons r rs =>
        have := hlen h
        rw [List.length_cons] at this
        simp only [Option.bind_some, SuccinctReceipt.reduce, this]

namespace JoinPlan

variable {α : Type} {nodes : Array (PlanNode α)} {leaves : Nat} {roots : List Nat}

/-! ### Shapes of nodes -/

/-- A node that makes what a shape says. -/
def Has (nodes : Array (PlanNode α)) : (id : Nat) → JoinShape → Prop
  | id, .leaf segment => ∃ node, nodes[id]? = some node ∧ node.kind = .leaf segment
  | id, .join left right => ∃ node a b, nodes[id]? = some node ∧ node.kind = .join a b ∧
    Has nodes a left ∧ Has nodes b right

/-- What makes a shape is a node. -/
theorem Has.exists_node {id : Nat} {t : JoinShape} (ht : Has nodes id t) :
    ∃ node, nodes[id]? = some node := by
  cases t with
  | leaf segment =>
    obtain ⟨node, hnode, -⟩ := ht
    exact ⟨node, hnode⟩
  | join left right =>
    obtain ⟨node, -, -, hnode, -⟩ := ht
    exact ⟨node, hnode⟩

/-- A node makes one shape only. -/
theorem Has.unique {id : Nat} {t u : JoinShape} (ht : Has nodes id t) (hu : Has nodes id u) :
    t = u := by
  induction t generalizing id u with
  | leaf segment =>
    obtain ⟨node, hnode, hkind⟩ := ht
    cases u with
    | leaf other =>
      obtain ⟨node', hnode', hkind'⟩ := hu
      obtain rfl := Option.some.inj (hnode.symm.trans hnode')
      rw [hkind, PlanNode.Kind.leaf.injEq] at hkind'
      rw [hkind']
    | join l r =>
      obtain ⟨node', a, b, hnode', hkind', -⟩ := hu
      obtain rfl := Option.some.inj (hnode.symm.trans hnode')
      simp [hkind] at hkind'
  | join left right ihl ihr =>
    obtain ⟨node, a, b, hnode, hkind, hl, hr⟩ := ht
    cases u with
    | leaf other =>
      obtain ⟨node', hnode', hkind'⟩ := hu
      obtain rfl := Option.some.inj (hnode.symm.trans hnode')
      simp [hkind] at hkind'
    | join l r =>
      obtain ⟨node', a', b', hnode', hkind', hl', hr'⟩ := hu
      obtain rfl := Option.some.inj (hnode.symm.trans hnode')
      rw [hkind, PlanNode.Kind.join.injEq] at hkind'
      obtain ⟨rfl, rfl⟩ := hkind'
      rw [ihl hl hl', ihr hr hr']

/-- A node makes the same shape among other nodes that are of the same kinds. -/
theorem Has.mono {nodes' : Array (PlanNode α)}
    (h : ∀ (id : Nat) (node : PlanNode α), nodes[id]? = some node →
      ∃ node', nodes'[id]? = some node' ∧ node'.kind = node.kind)
    {id : Nat} {t : JoinShape} (ht : Has nodes id t) : Has nodes' id t := by
  induction t generalizing id with
  | leaf segment =>
    obtain ⟨node, hnode, hkind⟩ := ht
    obtain ⟨node', hnode', hkind'⟩ := h id node hnode
    exact ⟨node', hnode', hkind'.trans hkind⟩
  | join left right ihl ihr =>
    obtain ⟨node, a, b, hnode, hkind, hl, hr⟩ := ht
    obtain ⟨node', hnode', hkind'⟩ := h id node hnode
    exact ⟨node', a, b, hnode', hkind'.trans hkind, ihl hl, ihr hr⟩

/-! ### Forests -/

/-- A node of some kind has another as an input. -/
def Takes : PlanNode.Kind → (id : Nat) → Prop
  | .leaf _, _ => False
  | .join left right, id => id = left ∨ id = right

/-- Nodes without results that are linked with their inputs: those of the segments come first, every
join takes two nodes before it, and the nodes without a parent are the roots. -/
structure Forest (leaves : Nat) (nodes : Array (PlanNode α)) (roots : List Nat) : Prop where
  nodup : roots.Nodup
  leaves_le : leaves ≤ nodes.size
  size_eq : nodes.size + roots.length = 2 * leaves
  result_eq : ∀ (id : Nat) (node : PlanNode α), nodes[id]? = some node → node.result = none
  leaf_eq : ∀ (id : Nat) (node : PlanNode α) (segment : Nat), nodes[id]? = some node →
    node.kind = .leaf segment → segment = id ∧ id < leaves ∧ node.pending = 0
  join_eq : ∀ (id : Nat) (node : PlanNode α) (left right : Nat), nodes[id]? = some node →
    node.kind = .join left right →
    leaves ≤ id ∧ left < id ∧ right < id ∧ left ≠ right ∧ node.pending = 2
  parent_iff : ∀ (id : Nat) (child : PlanNode α) (parent : Nat), nodes[id]? = some child →
    (child.parent = some parent ↔ ∃ node, nodes[parent]? = some node ∧ Takes node.kind id)
  root_iff : ∀ id : Nat, id ∈ roots ↔ ∃ node, nodes[id]? = some node ∧ node.parent = none

/-- The roots of a forest have no order. -/
theorem Forest.perm {roots' : List Nat} (h : Forest leaves nodes roots) (hp : roots.Perm roots') :
    Forest leaves nodes roots' where
  nodup := hp.nodup_iff.mp h.nodup
  leaves_le := h.leaves_le
  size_eq := hp.length_eq ▸ h.size_eq
  result_eq := h.result_eq
  leaf_eq := h.leaf_eq
  join_eq := h.join_eq
  parent_iff := h.parent_iff
  root_iff id := hp.mem_iff.symm.trans (h.root_iff id)

/-- The roots of a forest are nodes of it. -/
theorem Forest.root_lt {id : Nat} (h : Forest leaves nodes roots) (hid : id ∈ roots) :
    id < nodes.size := by
  obtain ⟨node, hnode, -⟩ := (h.root_iff id).mp hid
  exact (Array.getElem?_eq_some_iff.mp hnode).1

/-- A join is the parent of its inputs. -/
theorem Forest.parent_of_takes (h : Forest leaves nodes roots) {id parent : Nat}
    {child node : PlanNode α} (hchild : nodes[id]? = some child)
    (hnode : nodes[parent]? = some node) (htakes : Takes node.kind id) :
    child.parent = some parent :=
  (h.parent_iff id child parent hchild).mpr ⟨node, hnode, htakes⟩

/-- The inputs of a join are two nodes. -/
theorem Forest.ne_of_join (h : Forest leaves nodes roots) {id : Nat}
    {node : PlanNode α} (hnode : nodes[id]? = some node) (left right : Nat)
    (hkind : node.kind = .join left right) : left ≠ right :=
  (h.join_eq id node left right hnode hkind).2.2.2.1

/-- The inputs of a join come before it. -/
theorem Forest.lt_of_takes (h : Forest leaves nodes roots) {id q : Nat}
    {node : PlanNode α} (hnode : nodes[q]? = some node) (htakes : Takes node.kind id) : id < q := by
  cases hkind : node.kind with
  | leaf segment =>
    rw [hkind] at htakes
    exact htakes.elim
  | join left right =>
    obtain ⟨-, hl, hr, -⟩ := h.join_eq q node left right hnode hkind
    rw [hkind] at htakes
    obtain rfl | rfl := htakes
    · exact hl
    · exact hr

/-- The inputs of a join are nodes. -/
theorem Forest.exists_input (h : Forest leaves nodes roots)
    {id q : Nat} {node : PlanNode α} (hnode : nodes[q]? = some node)
    (htakes : Takes node.kind id) : ∃ child, nodes[id]? = some child :=
  ⟨_, Array.getElem?_eq_getElem (Nat.lt_trans (h.lt_of_takes hnode htakes)
    (Array.getElem?_eq_some_iff.mp hnode).1)⟩

/-- A node is an input of one join only. -/
theorem Forest.takes_unique (h : Forest leaves nodes roots)
    {id q q' : Nat} {node node' : PlanNode α} (hnode : nodes[q]? = some node)
    (hnode' : nodes[q']? = some node') (htakes : Takes node.kind id)
    (htakes' : Takes node'.kind id) : q' = q := by
  obtain ⟨child, hchild⟩ := h.exists_input hnode htakes
  exact Option.some.inj ((h.parent_of_takes hchild hnode' htakes').symm.trans
    (h.parent_of_takes hchild hnode htakes))

/-- The nodes of the segments come first. -/
theorem Forest.kind_iff (hf : Forest leaves nodes roots) (id : Nat) :
    id < leaves ↔ ∃ node, nodes[id]? = some node ∧ node.kind = .leaf id := by
  constructor
  · intro hid
    obtain ⟨node, hnode⟩ : ∃ node, nodes[id]? = some node :=
      ⟨_, Array.getElem?_eq_getElem (Nat.lt_of_lt_of_le hid hf.leaves_le)⟩
    refine ⟨node, hnode, ?_⟩
    cases hkind : node.kind with
    | leaf segment => rw [(hf.leaf_eq id node segment hnode hkind).1]
    | join left right =>
      have := (hf.join_eq id node left right hnode hkind).1
      omega
  · rintro ⟨node, hnode, hkind⟩
    exact (hf.leaf_eq id node id hnode hkind).2.1

/-- Every node of a forest has a shape. -/
theorem Forest.exists_has (hf : Forest leaves nodes roots) {id : Nat}
    {node : PlanNode α} (hnode : nodes[id]? = some node) : ∃ t, Has nodes id t := by
  induction id using Nat.strongRecOn generalizing node with
  | ind id ih =>
    cases hkind : node.kind with
    | leaf segment => exact ⟨.leaf segment, node, hnode, hkind⟩
    | join left right =>
      have input {j : Nat} (hj : Takes node.kind j) : ∃ t, Has nodes j t := by
        obtain ⟨child, hchild⟩ := hf.exists_input hnode hj
        exact ih j (hf.lt_of_takes hnode hj) hchild
      rw [hkind] at input
      obtain ⟨t, ht⟩ := input (.inl rfl)
      obtain ⟨u, hu⟩ := input (.inr rfl)
      exact ⟨.join t u, node, left, right, hnode, hkind, ht, hu⟩

/-- A join gives no receipt if one of its inputs gives none. -/
theorem Has.eval_eq_none {leaf : Nat → Option SuccinctReceipt} {id parent : Nat}
    {node : PlanNode α} {t u : JoinShape} (ht : Has nodes id t) (hnone : t.eval leaf = none)
    (hnode : nodes[parent]? = some node) (htakes : Takes node.kind id) (hu : Has nodes parent u) :
    u.eval leaf = none := by
  cases u with
  | leaf segment =>
    obtain ⟨node', hnode', hkind⟩ := hu
    obtain rfl := Option.some.inj (hnode.symm.trans hnode')
    rw [hkind] at htakes
    exact htakes.elim
  | join l r =>
    obtain ⟨node', left, right, hnode', hkind, hl, hr⟩ := hu
    obtain rfl := Option.some.inj (hnode.symm.trans hnode')
    rw [hkind] at htakes
    obtain rfl | rfl := htakes
    · rw [JoinShape.eval, hl.unique ht, hnone, Option.bind_none]
    · rw [JoinShape.eval, hr.unique ht, hnone]
      cases l.eval leaf <;> rfl

/-- If some node gives no receipt, then the root gives none. -/
theorem Forest.eval_root_eq_none {leaf : Nat → Option SuccinctReceipt} {root : Nat}
    (hf : Forest leaves nodes [root]) {id : Nat} {t u : JoinShape} (ht : Has nodes id t)
    (hnone : t.eval leaf = none) (hu : Has nodes root u) : u.eval leaf = none := by
  -- the failure passes to the parent, which comes later
  induction hgap : nodes.size - id using Nat.strongRecOn generalizing id t with
  | ind gap ih =>
    obtain ⟨child, hchild⟩ := ht.exists_node
    cases hparent : child.parent with
    | none =>
      have hroot := (hf.root_iff id).mpr ⟨child, hchild, hparent⟩
      rw [List.mem_singleton.mp hroot] at ht
      rw [← ht.unique hu, hnone]
    | some parent =>
      obtain ⟨node, hnode, htakes⟩ := (hf.parent_iff id child parent hchild).mp hparent
      have hid := hf.lt_of_takes hnode htakes
      have hsize := (Array.getElem?_eq_some_iff.mp hnode).1
      obtain ⟨v, hv⟩ := hf.exists_has hnode
      exact ih (nodes.size - parent) (by omega) hv (ht.eval_eq_none hnone hnode htakes hv) rfl

/-! ### Making forests -/

/-- The nodes of some segments are all roots. -/
theorem forest_leafNodes (leaves : Nat) :
    Forest leaves (leafNodes leaves : Array (PlanNode α)) (List.range leaves) := by
  have hnode (id : Nat) (node : PlanNode α) : (leafNodes leaves)[id]? = some node ↔
      id < leaves ∧ node = { kind := .leaf id } := by
    rw [leafNodes, List.getElem?_toArray, List.getElem?_map]
    by_cases hid : id < leaves
    · simp [hid, eq_comm]
    · simp [hid]
  have hsize : (leafNodes leaves : Array (PlanNode α)).size = leaves := by simp [leafNodes]
  refine ⟨List.nodup_range, Nat.le_of_eq hsize.symm, ?_, ?_, ?_, ?_, ?_, ?_⟩
  · rw [hsize, List.length_range]
    omega
  · intro id node h
    obtain ⟨-, rfl⟩ := (hnode id node).mp h
    rfl
  · intro id node segment h hkind
    obtain ⟨hid, rfl⟩ := (hnode id node).mp h
    exact ⟨(PlanNode.Kind.leaf.inj hkind).symm, hid, rfl⟩
  · intro id node left right h hkind
    obtain ⟨-, rfl⟩ := (hnode id node).mp h
    simp at hkind
  · intro id child parent h
    obtain ⟨-, rfl⟩ := (hnode id child).mp h
    simp only [reduceCtorEq, false_iff, not_exists, not_and]
    intro node hparent
    obtain ⟨-, rfl⟩ := (hnode parent node).mp hparent
    exact fun h => h
  · intro id
    simp [hnode, List.mem_range]

/-- A join is behind the other nodes, of which its inputs change their parent. -/
theorem getElem?_addJoin {left right : Nat} (hl : left < nodes.size) (hr : right < nodes.size)
    (id : Nat) : (addJoin nodes left right).1[id]? =
      if id = nodes.size then some { kind := .join left right, pending := 2 }
      else nodes[id]?.map fun node =>
        if id = left ∨ id = right then { node with parent := some nodes.size } else node := by
  simp only [addJoin, Array.getElem?_modify, Array.getElem?_push]
  by_cases hid : id = nodes.size
  · subst hid
    rw [if_neg (by omega), if_neg (by omega), if_pos rfl, if_pos rfl]
  · rw [if_neg hid, if_neg hid]
    cases nodes[id]? with
    | none => simp
    | some node =>
      by_cases hleft : left = id <;> by_cases hright : right = id <;>
        simp [hleft, hright, eq_comm]

/-- A node among which a join was put is this join or was there. -/
theorem addJoin_cases {left right id : Nat} {node : PlanNode α} (hl : left < nodes.size)
    (hr : right < nodes.size) (h : (addJoin nodes left right).1[id]? = some node) :
    (id = nodes.size ∧ node = { kind := .join left right, pending := 2 }) ∨
    ∃ old, nodes[id]? = some old ∧ node =
      if id = left ∨ id = right then { old with parent := some nodes.size } else old := by
  rw [getElem?_addJoin hl hr] at h
  by_cases hid : id = nodes.size
  · rw [if_pos hid] at h
    exact .inl ⟨hid, (Option.some.inj h).symm⟩
  · rw [if_neg hid] at h
    obtain ⟨old, hold, rfl⟩ := Option.map_eq_some_iff.mp h
    exact .inr ⟨old, hold, rfl⟩

/-- A node that was there stays behind a join as it was, up to its parent. -/
theorem getElem?_addJoin_of_some {left right id : Nat} {old : PlanNode α} (hl : left < nodes.size)
    (hr : right < nodes.size) (h : nodes[id]? = some old) :
    (addJoin nodes left right).1[id]? = some
      (if id = left ∨ id = right then { old with parent := some nodes.size } else old) := by
  have hid : id ≠ nodes.size := Nat.ne_of_lt (Array.getElem?_eq_some_iff.mp h).1
  rw [getElem?_addJoin hl hr, if_neg hid, h, Option.map_some]

theorem getElem?_addJoin_self {left right : Nat} (hl : left < nodes.size)
    (hr : right < nodes.size) : (addJoin nodes left right).1[nodes.size]? =
      some { kind := .join left right, pending := 2 } := by
  rw [getElem?_addJoin hl hr, if_pos rfl]

/-- A join is the parent of its inputs, and the other parents are those that were. -/
theorem takes_addJoin_iff {left right parent id : Nat} (hl : left < nodes.size)
    (hr : right < nodes.size) :
    (∃ node, (addJoin nodes left right).1[parent]? = some node ∧ Takes node.kind id) ↔
      (parent = nodes.size ∧ (id = left ∨ id = right)) ∨
      ∃ node, nodes[parent]? = some node ∧ Takes node.kind id := by
  constructor
  · rintro ⟨node, hnode, htakes⟩
    obtain ⟨rfl, rfl⟩ | ⟨old, hold, rfl⟩ := addJoin_cases hl hr hnode
    · exact .inl ⟨rfl, htakes⟩
    · refine .inr ⟨old, hold, ?_⟩
      split at htakes <;> exact htakes
  · rintro (⟨rfl, htakes⟩ | ⟨node, hnode, htakes⟩)
    · exact ⟨_, getElem?_addJoin_self hl hr, htakes⟩
    · refine ⟨_, getElem?_addJoin_of_some hl hr hnode, ?_⟩
      split <;> exact htakes

/-- The join of two roots is a root in their place. -/
theorem Forest.addJoin {a b : Nat} (h : Forest leaves nodes (a :: b :: roots)) :
    Forest leaves (addJoin nodes a b).1 (nodes.size :: roots) := by
  have ha : a < nodes.size := h.root_lt (by simp)
  have hb : b < nodes.size := h.root_lt (by simp)
  have hsize : (JoinPlan.addJoin nodes a b).1.size = nodes.size + 1 := by simp [JoinPlan.addJoin]
  obtain ⟨hab, hra, hrb, hroots⟩ : a ≠ b ∧ a ∉ roots ∧ b ∉ roots ∧ roots.Nodup := by
    simpa [and_assoc, not_or] using h.nodup
  refine ⟨?_, ?_, ?_, ?_, ?_, ?_, ?_, ?_⟩
  · refine List.nodup_cons.mpr ⟨fun hmem => ?_, hroots⟩
    exact absurd (h.root_lt (List.mem_cons_of_mem a (List.mem_cons_of_mem b hmem))) (by simp)
  · have := h.leaves_le
    omega
  · have := h.size_eq
    simp only [List.length_cons, hsize] at this ⊢
    omega
  · intro id node hnode
    obtain ⟨rfl, rfl⟩ | ⟨old, hold, rfl⟩ := addJoin_cases ha hb hnode
    · rfl
    · split <;> exact h.result_eq id old hold
  · intro id node segment hnode hkind
    obtain ⟨rfl, rfl⟩ | ⟨old, hold, rfl⟩ := addJoin_cases ha hb hnode
    · cases hkind
    · split at hkind <;> split <;> exact h.leaf_eq id old segment hold hkind
  · intro id node left right hnode hkind
    obtain ⟨rfl, rfl⟩ | ⟨old, hold, rfl⟩ := addJoin_cases ha hb hnode
    · cases hkind
      exact ⟨h.leaves_le, ha, hb, hab, rfl⟩
    · split at hkind <;> split <;> exact h.join_eq id old left right hold hkind
  · intro id child parent hchild
    rw [takes_addJoin_iff ha hb]
    obtain ⟨rfl, rfl⟩ | ⟨old, hold, rfl⟩ := addJoin_cases ha hb hchild
    · -- nothing takes the join that was just made
      simp only [reduceCtorEq, false_iff, not_or, not_and, not_exists]
      refine ⟨fun _ => by omega, fun node hnode htakes => ?_⟩
      have hlt := h.lt_of_takes hnode htakes
      have hsize := (Array.getElem?_eq_some_iff.mp hnode).1
      omega
    · rw [← h.parent_iff id old parent hold]
      by_cases hid : id = a ∨ id = b
      · have hnone : old.parent = none := by
          obtain ⟨node, hnode, hroot⟩ := (h.root_iff id).mp (by simp [← or_assoc, hid])
          rwa [Option.some.inj (hold.symm.trans hnode)]
        rw [if_pos hid, hnone, Option.some.injEq]
        exact ⟨fun hsame => .inl ⟨hsame.symm, hid⟩, fun hor =>
          hor.elim (fun hjoin => hjoin.1.symm) fun hnone => absurd hnone (by simp)⟩
      · simp [hid]
  · intro id
    rw [List.mem_cons]
    constructor
    · rintro (rfl | hid)
      · exact ⟨_, getElem?_addJoin_self ha hb, rfl⟩
      · obtain ⟨old, hold, hroot⟩ := (h.root_iff id).mp (by simp [hid])
        have hne : ¬(id = a ∨ id = b) := by
          rintro (rfl | rfl)
          · exact hra hid
          · exact hrb hid
        exact ⟨old, by rw [getElem?_addJoin_of_some ha hb hold, if_neg hne], hroot⟩
    · rintro ⟨node, hnode, hroot⟩
      obtain ⟨rfl, -⟩ | ⟨old, hold, rfl⟩ := addJoin_cases ha hb hnode
      · exact .inl rfl
      · by_cases hid : id = a ∨ id = b
        · simp [hid] at hroot
        · rw [if_neg hid] at hroot
          have hmem := (h.root_iff id).mpr ⟨old, hold, hroot⟩
          rw [List.mem_cons, List.mem_cons, ← or_assoc] at hmem
          exact .inr (hmem.resolve_left hid)

/-! ### Plans -/

/-- A node makes what it made before a join was put behind it. -/
theorem Has.addJoin {a b id : Nat} {t : JoinShape} (ha : a < nodes.size) (hb : b < nodes.size)
    (ht : Has nodes id t) : Has (addJoin nodes a b).1 id t := by
  refine ht.mono fun id node hnode => ⟨_, getElem?_addJoin_of_some ha hb hnode, ?_⟩
  split <;> rfl

/-- A join makes the join of what its inputs make. -/
theorem has_addJoin {a b : Nat} {t u : JoinShape} (ha : a < nodes.size) (hb : b < nodes.size)
    (ht : Has nodes a t) (hu : Has nodes b u) :
    Has (addJoin nodes a b).1 nodes.size (.join t u) :=
  ⟨_, a, b, getElem?_addJoin_self ha hb, rfl, ht.addJoin ha hb, hu.addJoin ha hb⟩

/-- Joining roots one after the other leaves one root. -/
theorem addFold_spec {first : Nat} {ids : List Nat} {t : JoinShape} {ts : List JoinShape}
    (h : Forest leaves nodes (first :: ids)) (ht : Has nodes first t)
    (hts : List.Forall₂ (Has nodes) ids ts) :
    Forest leaves (addFold nodes first ids).1 [(addFold nodes first ids).2] ∧
      Has (addFold nodes first ids).1 (addFold nodes first ids).2 (ts.foldl .join t) := by
  induction ids generalizing nodes first t ts with
  | nil =>
    cases hts
    exact ⟨h, ht⟩
  | cons id ids ih =>
    cases hts with
    | @cons _ u _ ts hid htail =>
      have hfirst : first < nodes.size := h.root_lt (by simp)
      have hlt : id < nodes.size := h.root_lt (by simp)
      exact ih (t := .join t u) h.addJoin (has_addJoin hfirst hlt ht hid)
        (htail.imp fun _ _ has => has.addJoin hfirst hlt)

/-- A round of joins takes some roots away for others, which make the joins of neighbours. -/
theorem addRound_spec :
    ∀ (others : List Nat) {nodes : Array (PlanNode α)} {ids : List Nat} {ts : List JoinShape},
    Forest leaves nodes (ids ++ others) → List.Forall₂ (Has nodes) ids ts →
    Forest leaves (addRound nodes ids).1 ((addRound nodes ids).2 ++ others) ∧
      List.Forall₂ (Has (addRound nodes ids).1) (addRound nodes ids).2 (pairUp .join ts) ∧
      ∀ id t, Has nodes id t → Has (addRound nodes ids).1 id t
  | _, _, [], _, h, .nil => ⟨h, .nil, fun _ _ ht => ht⟩
  | _, _, [_], _, h, .cons ht .nil => ⟨h, .cons ht .nil, fun _ _ ht => ht⟩
  | others, nodes, a :: b :: ids, _, h, .cons (b := t) ht (.cons (b := u) hu hts) => by
    have ha : a < nodes.size := h.root_lt (by simp)
    have hb : b < nodes.size := h.root_lt (by simp)
    -- the new join waits among the other roots while the rest of the round is made
    obtain ⟨hforest, hround, hkeep⟩ := addRound_spec (nodes.size :: others)
      (h.addJoin.perm List.perm_middle.symm) (hts.imp fun _ _ has => has.addJoin ha hb)
    refine ⟨hforest.perm List.perm_middle, .cons ?_ hround, fun id t ht => ?_⟩
    · exact hkeep _ _ (has_addJoin ha hb ht hu)
    · exact hkeep _ _ (ht.addJoin ha hb)

/-- Rounds of joins leave one root. -/
theorem addRounds_spec {rounds : Nat} {ids : List Nat} {ts : List JoinShape}
    (h : Forest leaves nodes ids) (hts : List.Forall₂ (Has nodes) ids ts) (hne : ids ≠ [])
    (hlen : ids.length ≤ 1 <<< rounds) :
    Forest leaves (addRounds rounds nodes ids).1 [(addRounds rounds nodes ids).2] ∧
      Has (addRounds rounds nodes ids).1 (addRounds rounds nodes ids).2 (.ofRounds rounds ts) := by
  induction rounds generalizing nodes ids ts with
  | zero =>
    cases hts with
    | nil => exact absurd rfl hne
    | cons ht hts =>
      obtain rfl := List.eq_nil_of_length_eq_zero (by simpa using hlen)
      exact ⟨h, ht⟩
  | succ rounds ih =>
    obtain ⟨hforest, hround, -⟩ := addRound_spec [] (by simpa using h) hts
    have hpos := List.length_pos_iff.mpr hne
    have hpair := length_pairUp JoinShape.join ts
    rw [← hround.length_eq, ← hts.length_eq] at hpair
    rw [Nat.shiftLeft_succ] at hlen
    rw [List.append_nil] at hforest
    exact ih hforest hround (List.length_pos_iff.mp (by omega)) (by omega)

/-- The nodes of the segments make the segments. -/
theorem forall₂_has_leafNodes (leaves : Nat) :
    List.Forall₂ (Has (leafNodes leaves : Array (PlanNode α))) (List.range leaves)
      ((List.range leaves).map .leaf) := by
  rw [List.forall₂_map_right_iff, List.forall₂_same]
  intro id hid
  exact ⟨{ kind := .leaf id }, by simp [leafNodes, List.mem_range.mp hid], rfl⟩

/-- A plan is a forest with one root, which makes what the reduction of the segments makes. -/
theorem make_spec (strategy : ReductionStrategy) {leaves : Nat} (hpos : 0 < leaves) :
    Forest leaves (make strategy leaves : JoinPlan α).nodes
        [(make strategy leaves : JoinPlan α).root] ∧
      Has (make strategy leaves : JoinPlan α).nodes (make strategy leaves : JoinPlan α).root
        (strategy.shape leaves) := by
  have hforest := forest_leafNodes (α := α) leaves
  have hhas := forall₂_has_leafNodes (α := α) leaves
  cases strategy with
  | fold =>
    obtain ⟨n, rfl⟩ : ∃ n, leaves = n + 1 := ⟨leaves - 1, by omega⟩
    have hcons : List.range (n + 1) = 0 :: (List.range (n + 1)).drop 1 := by
      simp [List.range_succ_eq_map]
    rw [hcons] at hforest hhas
    cases hhas with
    | cons hfirst hrest =>
      rw [ReductionStrategy.shape, ← List.map_drop]
      exact addFold_spec hforest hfirst hrest
  | tree =>
    exact addRounds_spec hforest hhas (by simp; omega) (by simpa using le_shiftLeft_rounds leaves)

end JoinPlan

end ReplayVM
