import Mathlib.Algebra.Ring.Nat
import Mathlib.Data.List.Induction
import ReplayVM.Proofs.PlanProgress
import ReplayVM.Proofs.SessionHistories
import ReplayVM.Proofs.WitnessSpace

/-!
# Tracking sessions

Whatever the schedule, a session is described by its history. While nothing has failed, the plan is
where the receipts in the history put it, the spawned nodes are those with all their inputs, and
each outstanding job ends with what the shape of its node gives. The first failure is that of a node
whose shape gives no receipt, and then the shape of the whole plan gives none.

## Main definitions

* `Segment.leafReceipt`: the receipt of a segment on its own.
* `ProverOptions.Admits`: the jobs of a session fit into the budget.
* `SessionState.Sound`, `SessionState.Underway`, `SessionState.Failed`, `SessionState.Tracked`.

## Main results

* `SessionState.Tracked.run`: a session is tracked under every schedule.
-/

namespace ReplayVM

open JoinPlan SessionEvent

/-! ### What a session is to give -/

/-- The receipt of a segment, proven with all the space there is and lifted. -/
def Segment.leafReceipt (s : Segment) : Option SuccinctReceipt :=
  s.proveFully.toOption.bind fun receipt => receipt.lift.toOption

/-- The receipts of segments by their numbers. -/
def Segment.leafReceipts (segments : List Segment) (number : Nat) : Option SuccinctReceipt :=
  segments[number]?.bind leafReceipt

namespace ProverOptions

/-- The plan for some segments. -/
def plan (o : ProverOptions) (segments : List Segment) : JoinPlan SuccinctReceipt :=
  .make o.reduction segments.length

/-- The shape of the plan for some segments. -/
def shape (o : ProverOptions) (segments : List Segment) : JoinShape :=
  o.reduction.shape segments.length

/-- The budget has the memory that each job on some segments takes. -/
structure Admits (o : ProverOptions) (segments : List Segment) : Prop where
  witness_le : ∀ s ∈ segments, s.WitnessWithin o.memoryBudget.toNat
  segmentMemory_le : ∀ bytes, o.segmentMemory = some bytes → bytes.toNat ≤ o.memoryBudget.toNat
  joinMemory_le : o.joinMemory.toNat ≤ o.memoryBudget.toNat

variable {o : ProverOptions} {segments : List Segment}

theorem Admits.prove_within (h : o.Admits segments) {s : Segment} (hs : s ∈ segments) :
    (Job.prove s).Within o o.memoryBudget.toNat := by
  rw [Job.Within, Job.demand]
  cases hbytes : o.segmentMemory with
  | none => exact h.witness_le s hs
  | some bytes => exact ⟨bytes, rfl, h.segmentMemory_le bytes hbytes⟩

theorem Admits.join_within (h : o.Admits segments) (left right : SuccinctReceipt) :
    (Job.join left right).Within o o.memoryBudget.toNat :=
  ⟨o.joinMemory, rfl, h.joinMemory_le⟩

/-- The nodes of the plan are a forest with one root. -/
theorem forest_plan (o : ProverOptions) (hne : segments ≠ []) :
    Forest segments.length (o.plan segments).nodes [(o.plan segments).root] :=
  (make_spec o.reduction (List.length_pos_iff.mpr hne)).1

/-- The root of the plan makes the whole shape. -/
theorem has_root (o : ProverOptions) (hne : segments ≠ []) :
    Has (o.plan segments).nodes (o.plan segments).root (o.shape segments) :=
  (make_spec o.reduction (List.length_pos_iff.mpr hne)).2

end ProverOptions

/-- Enough bytes for the witness of a segment are as good as all the space there is. -/
theorem Segment.WitnessWithin.prove_eq_proveFully {s : Segment} {budget : Nat}
    (h : s.WitnessWithin budget) : (s.prove budget fun _ => false) = s.proveFully := by
  obtain ⟨estimate, hestimate, hle⟩ := h
  have hmax : estimate.toNat ≤ UInt64.size - 1 := Nat.le_sub_one_of_lt estimate.toNat_lt_size
  simp only [proveFully, prove, checkAdmission, hestimate, Stop.fit, bind, Except.bind,
    if_neg (Nat.not_lt.mpr hle), if_neg (Nat.not_lt.mpr hmax)]

/-! ### Tracked sessions -/

namespace SessionState

/-- What holds of a session with some history at any time. -/
structure Sound (o : ProverOptions) (segments : List Segment) (log : List SessionEvent)
    (s : SessionState) : Prop where
  lawful : Lawful (o.plan segments).nodes segments log
  accounted : (spawnedNodes log).Perm (completedNodes log ++ s.outstanding.map Task.node)
  total_eq : s.budget.total = o.memoryBudget.toNat
  balanced : s.budget.available + (s.outstanding.map fun task => task.state.reserved).sum =
    s.budget.total
  fits : ∀ task ∈ s.outstanding, ∀ job, task.state = .queued job → job.Within o s.budget.total

/-- A session with some history of which nothing has failed. -/
structure Underway (o : ProverOptions) (token : CancellationToken) (segments : List Segment)
    (log : List SessionEvent) (s : SessionState) : Prop where
  failure_eq : s.failure = none
  active : s.cancellations.isCancelled token = false
  plan_at : At (o.plan segments) (received log) s.plan
  spawned_iff : ∀ id, id ∈ spawnedNodes log ↔ ∃ node, (o.plan segments).nodes[id]? = some node ∧
    missing (received log) node.kind = 0
  received_of_completed : ∀ id ∈ completedNodes log, (received log id).isSome
  eval_of_received : ∀ id receipt, received log id = some receipt →
    ∃ t, Has (o.plan segments).nodes id t ∧ t.eval (Segment.leafReceipts segments) = some receipt
  outcome_eq : ∀ task ∈ s.outstanding, ∃ t, Has (o.plan segments).nodes task.node t ∧
    (task.state.outcome o.memoryBudget.toNat).toOption = t.eval (Segment.leafReceipts segments)

/-- A session that has failed, for a reason in its segments. -/
structure Failed (o : ProverOptions) (token : CancellationToken) (segments : List Segment)
    (s : SessionState) : Prop where
  failure_ne : s.failure ≠ none
  not_workerPool : ∀ cause, s.failure ≠ some (.reported (.workerPool cause))
  cancelled : s.cancellations.isCancelled token = true
  eval_eq : (o.shape segments).eval (Segment.leafReceipts segments) = none

/-- A session with some history, under way or failed. -/
structure Tracked (o : ProverOptions) (token : CancellationToken) (segments : List Segment)
    (log : List SessionEvent) (s : SessionState) : Prop where
  sound : Sound o segments log s
  progress : Underway o token segments log s ∨ Failed o token segments s

variable {o : ProverOptions} {token : CancellationToken} {segments : List Segment}
  {log : List SessionEvent} {s : SessionState}

/-- The accounts are about the outstanding jobs and the budget only. -/
theorem Sound.congr {s' : SessionState} (h : Sound o segments log s)
    (houtstanding : s'.outstanding = s.outstanding) (hbudget : s'.budget = s.budget) :
    Sound o segments log s' := by
  refine ⟨h.lawful, ?_, ?_, ?_, ?_⟩
  · rw [houtstanding]
    exact h.accounted
  · rw [hbudget]
    exact h.total_eq
  · rw [houtstanding, hbudget]
    exact h.balanced
  · rw [houtstanding, hbudget]
    exact h.fits

/-- A session stays failed. -/
theorem Failed.congr {s' : SessionState} (h : Failed o token segments s)
    (hfailure : s'.failure = s.failure) (hcancellations : s'.cancellations = s.cancellations) :
    Failed o token segments s' := by
  refine ⟨?_, ?_, ?_, h.eval_eq⟩
  · rw [hfailure]
    exact h.failure_ne
  · rw [hfailure]
    exact h.not_workerPool
  · rw [hcancellations]
    exact h.cancelled

/-- A session that has failed may still stop the program. -/
theorem Failed.stops {s' : SessionState} (h : Failed o token segments s) :
    Failed o token segments (s'.fail token .overflow) where
  failure_ne := by simp [fail]
  not_workerPool cause := by simp [fail]
  cancelled := (Cancellations.isCancelled_cancel _ _ _).mpr
    (.inl (by simp [CancellationToken.lineage]))
  eval_eq := h.eval_eq

/-- The job of an outstanding task has not ended. -/
theorem Sound.not_mem_completedNodes (h : Sound o segments log s) {task : Task}
    (htask : task ∈ s.outstanding) : task.node ∉ completedNodes log := fun hcompleted => by
  have hnodup := h.accounted.nodup_iff.mp h.lawful.nodup
  exact (List.nodup_append.mp hnodup).2.2 _ hcompleted _ (List.mem_map_of_mem htask) rfl

/-- A stage that does not end a job keeps the accounts. -/
theorem Sound.runs (h : Sound o segments log s) {before after : List Task} {task : Task}
    {state : JobState} {budget : MemoryBudget}
    (houtstanding : s.outstanding = before ++ task :: after)
    (hprogress : s.progress token o task = .running state budget) :
    Sound o segments log { s with
      outstanding := before ++ { task with state := state } :: after
      budget := budget } := by
  obtain ⟨hstages, htotal, havailable⟩ := JobState.advance_running hprogress
  have hbalanced := h.balanced
  have haccounted := h.accounted
  have hfits := h.fits
  rw [houtstanding] at hbalanced haccounted hfits
  refine ⟨h.lawful, ?_, htotal.trans h.total_eq, ?_, ?_⟩
  · simpa using haccounted
  · simp only [List.map_append, List.map_cons, List.sum_append, List.sum_cons] at hbalanced ⊢
    omega
  · intro task' htask' job hjob
    rw [htotal]
    obtain hmem | rfl | hmem : task' ∈ before ∨ task' = { task with state := state } ∨
        task' ∈ after := by simpa using htask'
    · exact hfits task' (by simp [hmem]) job hjob
    · exact absurd hjob (JobState.ne_queued_of_running hprogress job)
    · exact hfits task' (by simp [hmem]) job hjob

/-- An outstanding job that ends keeps the accounts. -/
theorem Sound.completed (h : Sound o segments log s) {before after : List Task} {task : Task}
    {result : Except (Stop PipelineError) SuccinctReceipt} {budget : MemoryBudget}
    (houtstanding : s.outstanding = before ++ task :: after)
    (hprogress : s.progress token o task = .finished result budget) :
    Sound o segments (log ++ [.completed task.node result])
      { s with outstanding := before ++ after, budget := budget } := by
  obtain ⟨htotal, havailable⟩ := JobState.advance_finished hprogress
  have hbalanced := h.balanced
  have haccounted := h.accounted
  have hfits := h.fits
  have hmem : task ∈ s.outstanding := by simp [houtstanding]
  have hspawned : task.node ∈ spawnedNodes log :=
    haccounted.mem_iff.mpr (List.mem_append_right _ (List.mem_map_of_mem hmem))
  rw [houtstanding] at hbalanced haccounted hfits
  refine ⟨h.lawful.completed hspawned (h.not_mem_completedNodes hmem), ?_,
    htotal.trans h.total_eq, ?_, ?_⟩
  · rw [spawnedNodes_append, completedNodes_append, spawnedNodes_completed, List.append_nil,
      completedNodes_completed, List.append_assoc]
    refine haccounted.trans (List.Perm.append_left _ ?_)
    simp [List.perm_middle]
  · simp only [List.map_append, List.map_cons, List.sum_append, List.sum_cons] at hbalanced ⊢
    omega
  · intro task' htask' job hjob
    rw [htotal]
    obtain hmem | hmem := List.mem_append.mp htask'
    · exact hfits task' (by simp [hmem]) job hjob
    · exact hfits task' (by simp [hmem]) job hjob

/-- A spawned job that fits into the budget is accounted for. -/
theorem Sound.spawned (h : Sound o segments log s) {id : Nat} {job : Job}
    {plan : JoinPlan SuccinctReceipt}
    (hlawful : Lawful (o.plan segments).nodes segments (log ++ [.spawned ⟨id, .queued job⟩]))
    (hfits : job.Within o o.memoryBudget.toNat) :
    Sound o segments (log ++ [.spawned ⟨id, .queued job⟩])
      { s with plan := plan, outstanding := s.outstanding ++ [⟨id, .queued job⟩] } := by
  refine ⟨hlawful, ?_, h.total_eq, ?_, ?_⟩
  · simpa using (h.accounted.append_right [id])
  · simpa [JobState.reserved] using h.balanced
  · intro task htask job' hjob'
    obtain hmem | rfl : task ∈ s.outstanding ∨ task = ⟨id, .queued job⟩ := by simpa using htask
    · exact h.fits task hmem job' hjob'
    · cases hjob'
      exact h.total_eq ▸ hfits

section Receive

variable {id : Nat} {receipt : SuccinctReceipt} {t : JoinShape}

/-- The outstanding jobs beside a task keep their outcomes. -/
theorem Underway.outcome_eq_of_rest (h : Underway o token segments log s)
    {before after : List Task} {task : Task}
    (houtstanding : s.outstanding = before ++ task :: after)
    (other : Task) (hother : other ∈ before ++ after) :
    ∃ t, Has (o.plan segments).nodes other.node t ∧
      (other.state.outcome o.memoryBudget.toNat).toOption =
        t.eval (Segment.leafReceipts segments) := by
  refine h.outcome_eq other ?_
  rw [houtstanding]
  exact List.mem_append.mpr ((List.mem_append.mp hother).imp id (List.mem_cons_of_mem task))

/-- After an end with a receipt, every end so far was with one. -/
theorem Underway.received_of_completed_append (h : Underway o token segments log s)
    (hnone : received log id = none) (j : Nat)
    (hj : j ∈ completedNodes (log ++ [.completed id (.ok receipt)])) :
    (received (log ++ [.completed id (.ok receipt)]) j).isSome := by
  rw [received_append_ok receipt hnone]
  by_cases hid : j = id
  · subst hid
    simp
  · rw [Function.update_of_ne hid]
    refine h.received_of_completed j ?_
    simpa [hid] using hj

/-- After an end with the receipt of a shape, the receipts so far are those of shapes. -/
theorem Underway.eval_of_received_append (h : Underway o token segments log s)
    (hnone : received log id = none) (ht : Has (o.plan segments).nodes id t)
    (heval : t.eval (Segment.leafReceipts segments) = some receipt) (j : Nat) (r : SuccinctReceipt)
    (hj : received (log ++ [.completed id (.ok receipt)]) j = some r) :
    ∃ t, Has (o.plan segments).nodes j t ∧
      t.eval (Segment.leafReceipts segments) = some r := by
  rw [received_append_ok receipt hnone] at hj
  by_cases hid : j = id
  · subst hid
    rw [Function.update_self] at hj
    exact ⟨t, ht, heval.trans hj⟩
  · rw [Function.update_of_ne hid] at hj
    exact h.eval_of_received j r hj

variable {before after : List Task} {task : Task} {budget : MemoryBudget}

/-- A receipt for which no join has waited as the last one leaves a session under way. -/
theorem Underway.waits (h : Underway o token segments log s) (hne : segments ≠ [])
    (houtstanding : s.outstanding = before ++ task :: after)
    {child : PlanNode SuccinctReceipt} (hchild : (o.plan segments).nodes[task.node]? = some child)
    (hnone : received log task.node = none) (ht : Has (o.plan segments).nodes task.node t)
    (heval : t.eval (Segment.leafReceipts segments) = some receipt)
    (hwait : ∀ (q : Nat) (node : PlanNode SuccinctReceipt),
      (o.plan segments).nodes[q]? = some node → Takes node.kind task.node →
      missing (Function.update (received log) task.node (some receipt)) node.kind ≠ 0) :
    Underway o token segments (log ++ [.completed task.node (.ok receipt)])
      { s with
        plan := (s.plan.complete task.node receipt).1
        outstanding := before ++ after
        budget := budget } := by
  have hf := o.forest_plan hne
  have hreceived := received_append_ok receipt hnone
  refine ⟨h.failure_eq, h.active, ?_, fun id => ?_, h.received_of_completed_append hnone,
    h.eval_of_received_append hnone ht heval, h.outcome_eq_of_rest houtstanding⟩
  · rw [hreceived]
    exact (h.plan_at.complete_waiting hf hchild hnone hwait).2
  · rw [spawnedNodes_append, spawnedNodes_completed, List.append_nil, h.spawned_iff, hreceived]
    refine exists_congr fun node => and_congr_right fun hnode => ?_
    rw [hf.missing_update_eq_zero_iff hnone hnode]
    exact (or_iff_left fun hready => hwait id node hnode hready.1 hready.2).symm

/-- The last receipt that a join waits for spawns its job, with what its inputs gave. -/
theorem Underway.spawns (h : Underway o token segments log s) (hne : segments ≠ [])
    (hsound : Sound o segments (log ++ [.completed task.node (.ok receipt)])
      { s with outstanding := before ++ after, budget := budget })
    (houtstanding : s.outstanding = before ++ task :: after)
    (hnone : received log task.node = none) (ht : Has (o.plan segments).nodes task.node t)
    (heval : t.eval (Segment.leafReceipts segments) = some receipt)
    {q left right : Nat} {node : PlanNode SuccinctReceipt} {a b : SuccinctReceipt}
    {plan : JoinPlan SuccinctReceipt} (hnode : (o.plan segments).nodes[q]? = some node)
    (hkind : node.kind = .join left right) (htakes : Takes node.kind task.node)
    (hready : missing (Function.update (received log) task.node (some receipt)) node.kind = 0)
    (hleft : Function.update (received log) task.node (some receipt) left = some a)
    (hright : Function.update (received log) task.node (some receipt) right = some b)
    (hplan : At (o.plan segments) (Function.update (received log) task.node (some receipt)) plan)
    (hfits : (Job.join a b).Within o o.memoryBudget.toNat) :
    Tracked o token segments
      (log ++ [.completed task.node (.ok receipt)] ++ [.spawned ⟨q, .queued (.join a b)⟩])
      { s with
        plan := plan
        outstanding := before ++ after ++ [⟨q, .queued (.join a b)⟩]
        budget := budget } := by
  have hf := o.forest_plan hne
  have hreceived := received_append_ok receipt hnone
  have hvalue := h.eval_of_received_append hnone ht heval
  have hmissing := missing_update_of_takes receipt (hf.ne_of_join hnode) hnone htakes
  rw [← hreceived] at hleft hright
  have hnew : q ∉ spawnedNodes (log ++ [.completed task.node (.ok receipt)]) := by
    rw [spawnedNodes_append, spawnedNodes_completed, List.append_nil, h.spawned_iff]
    rintro ⟨node', hnode', hzero⟩
    obtain rfl := Option.some.inj (hnode.symm.trans hnode')
    omega
  have hlawful := hsound.lawful.join hnew hnode hkind (mem_of_received hleft)
    (mem_of_received hright)
  refine ⟨hsound.spawned hlawful hfits, .inl ⟨h.failure_eq, h.active, ?_, fun id => ?_, ?_, ?_,
    fun task' htask' => ?_⟩⟩
  · rw [received_append_spawned, hreceived]
    exact hplan
  · rw [spawnedNodes_append, spawnedNodes_append, spawnedNodes_completed, List.append_nil,
      List.mem_append, h.spawned_iff, received_append_spawned, hreceived, spawnedNodes_spawned,
      List.mem_singleton]
    constructor
    · rintro (⟨node', hnode', hzero⟩ | rfl)
      · exact ⟨node', hnode', (hf.missing_update_eq_zero_iff hnone hnode').mpr (.inl hzero)⟩
      · exact ⟨node, hnode, hready⟩
    · rintro ⟨node', hnode', hzero⟩
      obtain hwas | ⟨htakes', -⟩ := (hf.missing_update_eq_zero_iff hnone hnode').mp hzero
      · exact .inl ⟨node', hnode', hwas⟩
      · exact .inr (hf.takes_unique hnode hnode' htakes htakes')
  · intro j hj
    rw [completedNodes_append, completedNodes_spawned, List.append_nil] at hj
    rw [received_append_spawned]
    exact h.received_of_completed_append hnone j hj
  · rw [received_append_spawned]
    exact hvalue
  · obtain hmem | rfl : task' ∈ before ++ after ∨ task' = ⟨q, .queued (.join a b)⟩ :=
      (List.mem_append.mp htask').imp id List.mem_singleton.mp
    · exact h.outcome_eq_of_rest houtstanding task' hmem
    · obtain ⟨u, hu, hevalu⟩ := hvalue left a hleft
      obtain ⟨v, hv, hevalv⟩ := hvalue right b hright
      refine ⟨.join u v, ⟨node, left, right, hnode, hkind, hu, hv⟩, ?_⟩
      rw [JoinShape.eval, hevalu, hevalv, Option.bind_some, Option.bind_some]
      cases hjoin : a.join b <;> simp [JobState.outcome, Job.outcome, hjoin, Except.mapError,
        Except.toOption]

end Receive

/-- The end of a job leaves a session under way, or lets it fail. -/
theorem Tracked.ends (hne : segments ≠ []) (hadmits : o.Admits segments)
    (hsound : Sound o segments log s) (h : Underway o token segments log s)
    {before after : List Task} {task : Task} {result : Except (Stop PipelineError) SuccinctReceipt}
    {budget : MemoryBudget} {events : List SessionEvent} {s' : SessionState}
    (houtstanding : s.outstanding = before ++ task :: after)
    (hprogress : s.progress token o task = .finished result budget)
    (hends : Ends token { s with outstanding := before ++ after, budget := budget } task.node result
      events s') :
    Tracked o token segments (log ++ .completed task.node result :: events) s' := by
  have hf := o.forest_plan hne
  have hmem : task ∈ s.outstanding := by simp [houtstanding]
  have hsound' := hsound.completed houtstanding hprogress
  obtain ⟨t, ht, heval⟩ := h.outcome_eq task hmem
  have hresult : result = task.state.outcome o.memoryBudget.toNat := by
    rw [SessionState.progress, h.active] at hprogress
    rw [← hsound.total_eq]
    exact JobState.outcome_of_finished (hsound.fits task hmem) hprogress
  obtain ⟨child, hchild, -⟩ := (h.spawned_iff task.node).mp
    (hsound.accounted.mem_iff.mpr (by simp [houtstanding]))
  have hnone : received log task.node = none := by
    cases hreceived : received log task.node with
    | none => rfl
    | some r =>
      exact absurd (mem_completedNodes_of_received hreceived) (hsound.not_mem_completedNodes hmem)
  rw [← hresult] at heval
  cases hends with
  | dropped hfailure => simp [h.failure_eq] at hfailure
  | stops hfailure => simp [h.failure_eq] at hfailure
  | @fails cause hfailure =>
    refine ⟨hsound'.congr rfl rfl, .inr ⟨by simp [fail], fun pool hpool => ?_, ?_, ?_⟩⟩
    · obtain rfl : cause = .reported (.workerPool pool) := by simpa [fail] using hpool
      exact JobState.outcome_ne_workerPool _ _ hresult.symm
    · rw [fail, Cancellations.isCancelled_cancel]
      exact .inl (by simp [CancellationToken.lineage])
    · exact hf.eval_root_eq_none ht heval.symm (o.has_root hne)
  | @waits receipt hfailure hready =>
    have hwait (q : Nat) (node : PlanNode SuccinctReceipt)
        (hnode : (o.plan segments).nodes[q]? = some node) (htakes : Takes node.kind task.node)
        (hzero : missing (Function.update (received log) task.node (some receipt)) node.kind = 0) :
        False := by
      have hq := (h.plan_at.complete_ready hf hchild hnone hnode htakes hzero).1
      exact Option.some_ne_none q (hq.symm.trans hready)
    exact ⟨hsound'.congr rfl rfl, .inl (h.waits hne houtstanding hchild hnone ht heval.symm
      hwait)⟩
  | @spawns receipt join a b plan hfailure hready htake =>
    obtain ⟨node, hnode, htakes, hzero⟩ := h.plan_at.ready_of_complete hf hchild hnone hready
    obtain ⟨-, left, right, a', b', plan', hkind, hleft, hright, htake', hplan⟩ :=
      h.plan_at.complete_ready hf hchild hnone hnode htakes hzero
    obtain ⟨⟨rfl, rfl⟩, rfl⟩ : (a' = a ∧ b' = b) ∧ plan' = plan := by
      simpa using htake'.symm.trans htake
    have htracked := h.spawns hne hsound' houtstanding hnone ht heval.symm hnode hkind htakes hzero
      hleft hright hplan (hadmits.join_within a' b')
    rwa [List.append_assoc] at htracked
  | @collides receipt join hfailure hready htake =>
    obtain ⟨node, hnode, htakes, hzero⟩ := h.plan_at.ready_of_complete hf hchild hnone hready
    obtain ⟨-, left, right, a', b', plan', -, -, -, htake', -⟩ :=
      h.plan_at.complete_ready hf hchild hnone hnode htakes hzero
    exact absurd (htake'.symm.trans htake) (Option.some_ne_none _)

/-- A stage leaves a session tracked. -/
theorem Tracked.stage (h : Tracked o token segments log s) (hne : segments ≠ [])
    (hadmits : o.Admits segments) {position : Nat} {events : List SessionEvent} {s' : SessionState}
    (hstage : Stage token o s position events s') :
    Tracked o token segments (log ++ events) s' := by
  cases hstage with
  | @runs before task after state budget houtstanding _ hprogress =>
    rw [List.append_nil]
    refine ⟨h.sound.runs houtstanding hprogress, h.progress.imp (fun hunder => ?_) fun hfailed =>
      hfailed.congr rfl rfl⟩
    refine ⟨hunder.failure_eq, hunder.active, hunder.plan_at, hunder.spawned_iff,
      hunder.received_of_completed, hunder.eval_of_received, fun task' htask' => ?_⟩
    have houtcome := hunder.outcome_eq
    rw [houtstanding] at houtcome
    obtain hmem | rfl | hmem : task' ∈ before ∨ task' = { task with state := state } ∨
        task' ∈ after := by simpa using htask'
    · exact houtcome task' (by simp [hmem])
    · rw [SessionState.progress, hunder.active] at hprogress
      have hsame := JobState.outcome_of_running hprogress
      rw [h.sound.total_eq] at hsame
      simpa only [hsame] using houtcome task (by simp)
    · exact houtcome task' (by simp [hmem])
  | @ends before task after result budget events s' houtstanding _ hprogress hends =>
    obtain hunder | hfailed := h.progress
    · exact Tracked.ends hne hadmits h.sound hunder houtstanding hprogress hends
    · -- after a failure, the end of a job changes nothing but what stops the program
      have hsound := h.sound.completed houtstanding hprogress
      cases hends with
      | dropped => exact ⟨hsound, .inr (hfailed.congr rfl rfl)⟩
      | stops => exact ⟨hsound.congr rfl rfl, .inr hfailed.stops⟩
      | fails hnone => exact absurd hnone hfailed.failure_ne
      | waits hnone => exact absurd hnone hfailed.failure_ne
      | spawns hnone => exact absurd hnone hfailed.failure_ne
      | collides hnone => exact absurd hnone hfailed.failure_ne

/-- An advance leaves a session tracked. -/
theorem Tracked.advance (h : Tracked o token segments log s) (hne : segments ≠ [])
    (hadmits : o.Admits segments) (position : Nat) :
    Tracked o token segments (log ++ s.events token o position) (s.advance token o position) := by
  obtain hstage | ⟨-, hsame, hevents⟩ := s.advance_cases token o position
  · exact h.stage hne hadmits hstage
  · rwa [hsame, hevents, List.append_nil]

/-- A session is tracked under every schedule. -/
theorem Tracked.run (h : Tracked o token segments log s) (hne : segments ≠ [])
    (hadmits : o.Admits segments) (schedule : List Nat) :
    Tracked o token segments (log ++ s.history token o schedule) (s.run token o schedule) := by
  induction schedule generalizing log s with
  | nil =>
    rw [history, List.append_nil, SessionState.run]
    exact h
  | cons position schedule ih =>
    rw [history, ← List.append_assoc]
    exact ih (h.advance hne hadmits position)

/-! ### New sessions -/

/-- A new session has a job for each segment. -/
theorem map_node_start (strategy : ReductionStrategy) (budget : MemoryBudget)
    (cancellations : Cancellations) (segments : List Segment) :
    (start strategy budget cancellations segments).outstanding.map Task.node =
      List.range segments.length := by
  simp [start, List.map_map, Function.comp_def, List.range_eq_range']

/-- Segments are spawned lawfully in any order. -/
theorem lawful_segments {nodes : Array (PlanNode SuccinctReceipt)} (items : List (Segment × Nat))
    (hitems : ∀ item ∈ items, segments[item.2]? = some item.1 ∧
      ∃ node, nodes[item.2]? = some node ∧ node.kind = .leaf item.2)
    (hnodup : (items.map Prod.snd).Nodup) :
    Lawful nodes segments ((items.map fun item =>
      (⟨item.2, .queued (.prove item.1)⟩ : Task)).map .spawned) := by
  induction items using List.reverseRecOn with
  | nil => exact .nil
  | append_singleton items item ih =>
    obtain ⟨hsegment, node, hnode, hkind⟩ := hitems item (by simp)
    rw [List.map_append, List.nodup_append] at hnodup
    have hlawful := ih (fun item hitem => hitems item (by simp [hitem])) hnodup.1
    rw [List.map_append, List.map_append]
    refine hlawful.segment (fun hmem => ?_) hnode hkind hsegment
    rw [spawnedNodes_map_spawned, List.map_map] at hmem
    exact hnodup.2.2 item.2 hmem item.2 (by simp) rfl

/-- A new session is tracked. -/
theorem tracked_start (hne : segments ≠ []) (hadmits : o.Admits segments)
    {cancellations : Cancellations} (hactive : cancellations.isCancelled token = false) :
    Tracked o token segments
      ((start o.reduction (.full o.memoryBudget.toNat) cancellations segments).outstanding.map
        .spawned)
      (start o.reduction (.full o.memoryBudget.toNat) cancellations segments) := by
  have hf := o.forest_plan hne
  have hitems (item : Segment × Nat) (hitem : item ∈ segments.zipIdx) :
      segments[item.2]? = some item.1 :=
    List.mk_mem_zipIdx_iff_getElem?.mp hitem
  have hlt (item : Segment × Nat) (hitem : item ∈ segments.zipIdx) : item.2 < segments.length :=
    (List.getElem?_eq_some_iff.mp (hitems item hitem)).1
  have htask (task : Task) (htask : task ∈ (start o.reduction (.full o.memoryBudget.toNat)
      cancellations segments).outstanding) : ∃ segment, segments[task.node]? = some segment ∧
      task.state = .queued (.prove segment) := by
    obtain ⟨item, hitem, rfl⟩ := List.mem_map.mp htask
    exact ⟨item.1, hitems item hitem, rfl⟩
  have hnodes := map_node_start o.reduction (.full o.memoryBudget.toNat) cancellations segments
  have hreceived := received_map_spawned
    (start o.reduction (.full o.memoryBudget.toNat) cancellations segments).outstanding
  refine ⟨⟨lawful_segments _ (fun item hitem => ⟨hitems item hitem,
    (Forest.kind_iff hf _).mp (hlt item hitem)⟩) ?_, ?_, rfl, ?_, ?_⟩,
    .inl ⟨rfl, hactive, ?_, fun id => ?_, ?_, ?_, ?_⟩⟩
  · simpa [List.range_eq_range'] using List.nodup_range
  · rw [spawnedNodes_map_spawned, completedNodes_map_spawned, List.nil_append]
  · simp [start, MemoryBudget.full, List.map_map, Function.comp_def, JobState.reserved]
  · intro task hmem job hjob
    obtain ⟨segment, hsegment, hstate⟩ := htask task hmem
    obtain rfl : Job.prove segment = job := by simpa [hstate] using hjob
    exact hadmits.prove_within (List.mem_of_getElem? hsegment)
  · rw [hreceived]
    exact hf.at_none
  · rw [spawnedNodes_map_spawned, hnodes, hreceived, List.mem_range, Forest.kind_iff hf]
    refine exists_congr fun node => and_congr_right fun hnode => ⟨fun hkind => ?_, fun hzero => ?_⟩
    · rw [hkind, missing]
    · cases hkind : node.kind with
      | leaf segment => rw [(hf.leaf_eq id node segment hnode hkind).1]
      | join left right => simp [hkind, missing] at hzero
  · rw [completedNodes_map_spawned]
    simp
  · rw [hreceived]
    simp
  · intro task hmem
    obtain ⟨segment, hsegment, hstate⟩ := htask task hmem
    obtain ⟨hlt, -⟩ := List.getElem?_eq_some_iff.mp hsegment
    refine ⟨.leaf task.node, (Forest.kind_iff hf _).mp hlt, ?_⟩
    have hprove :=
      (hadmits.witness_le segment (List.mem_of_getElem? hsegment)).prove_eq_proveFully
    rw [hstate, JobState.outcome, Job.outcome, hprove, JoinShape.eval, Segment.leafReceipts,
      hsegment, Option.bind_some, Segment.leafReceipt]
    cases segment.proveFully with
    | error cause => rfl
    | ok receipt =>
      cases hlift : receipt.lift <;> simp [Except.mapError, Except.bind, Except.toOption, hlift]

/-! ### Sessions that have ended -/

/-- Every node of a session that ended without a failure has its receipt. -/
theorem Underway.exists_received (h : Underway o token segments log s) (hne : segments ≠ [])
    (hsound : Sound o segments log s) (hempty : s.outstanding = []) {id : Nat}
    {node : PlanNode SuccinctReceipt} (hnode : (o.plan segments).nodes[id]? = some node) :
    (received log id).isSome := by
  have hf := o.forest_plan hne
  have hended := hsound.accounted
  rw [hempty, List.map_nil, List.append_nil] at hended
  induction id using Nat.strongRecOn generalizing node with
  | ind id ih =>
    refine h.received_of_completed id (hended.mem_iff.mp ((h.spawned_iff id).mpr ⟨node, hnode, ?_⟩))
    refine missing_eq_zero_iff.mpr fun j htakes => ?_
    obtain ⟨child, hchild⟩ := hf.exists_input hnode htakes
    exact ih j (hf.lt_of_takes hnode htakes) hchild

/-- A session that ended without a failure has spawned every node of its plan once. -/
theorem Underway.spawnedNodes_perm (h : Underway o token segments log s) (hne : segments ≠ [])
    (hsound : Sound o segments log s) (hempty : s.outstanding = []) :
    (spawnedNodes log).Perm (List.range (o.plan segments).nodes.size) := by
  refine (List.perm_ext_iff_of_nodup hsound.lawful.nodup List.nodup_range).mpr fun id => ?_
  rw [h.spawned_iff, List.mem_range]
  constructor
  · rintro ⟨node, hnode, -⟩
    exact (Array.getElem?_eq_some_iff.mp hnode).1
  · intro hid
    refine ⟨_, Array.getElem?_eq_getElem hid, missing_eq_zero_iff.mpr fun j htakes => ?_⟩
    obtain ⟨child, hchild⟩ :=
      (o.forest_plan hne).exists_input (Array.getElem?_eq_getElem hid) htakes
    exact h.exists_received hne hsound hempty hchild

/-- A session that ended has the receipt of the whole shape, if there is one. -/
theorem Tracked.result_eq_ok_iff (h : Tracked o token segments log s) (hne : segments ≠ [])
    (hempty : s.outstanding = []) (receipt : SuccinctReceipt) :
    s.result = .ok receipt ↔
      (o.shape segments).eval (Segment.leafReceipts segments) = some receipt := by
  obtain hunder | hfailed := h.progress
  · have hroot := o.has_root hne
    obtain ⟨node, hnode, -⟩ := ((o.forest_plan hne).root_iff _).mp (List.mem_singleton.mpr rfl)
    obtain ⟨r, hr⟩ := Option.isSome_iff_exists.mp
      (hunder.exists_received hne h.sound hempty hnode)
    obtain ⟨t, ht, heval⟩ := hunder.eval_of_received _ r hr
    rw [← ht.unique hroot, heval, SessionState.result, hunder.failure_eq,
      hunder.plan_at.rootResult (o.forest_plan hne), hr]
    simp
  · obtain ⟨cause, hcause⟩ := Option.ne_none_iff_exists'.mp hfailed.failure_ne
    rw [hfailed.eval_eq, SessionState.result, hcause]
    simp

/-- A session does not fail for its bookkeeping. -/
theorem Tracked.failure_ne_workerPool (h : Tracked o token segments log s) (cause : PoolError) :
    s.failure ≠ some (.reported (.workerPool cause)) := by
  obtain hunder | hfailed := h.progress
  · simp [hunder.failure_eq]
  · exact hfailed.not_workerPool cause

/-- The result of a session that has ended is not a failure of its bookkeeping. -/
theorem Tracked.result_ne_workerPool (h : Tracked o token segments log s) (hne : segments ≠ [])
    (hempty : s.outstanding = []) (cause : PoolError) :
    s.result ≠ .error (.reported (.workerPool cause)) := by
  obtain hunder | hfailed := h.progress
  · obtain ⟨node, hnode, -⟩ := ((o.forest_plan hne).root_iff _).mp (List.mem_singleton.mpr rfl)
    obtain ⟨r, hr⟩ := Option.isSome_iff_exists.mp
      (hunder.exists_received hne h.sound hempty hnode)
    rw [SessionState.result, hunder.failure_eq, hunder.plan_at.rootResult (o.forest_plan hne), hr]
    simp
  · obtain ⟨failure, hfailure⟩ := Option.ne_none_iff_exists'.mp hfailed.failure_ne
    rw [SessionState.result, hfailure]
    intro hsame
    obtain rfl : failure = .reported (.workerPool cause) := by simpa using hsame
    exact hfailed.not_workerPool cause hfailure

end SessionState

end ReplayVM
