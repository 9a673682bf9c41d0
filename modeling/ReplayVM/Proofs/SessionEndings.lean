import ReplayVM.Proofs.JoinPlans
import ReplayVM.Proofs.LivePermits

/-!
# The ends of sessions

Every session can be brought to its end, whatever its segments are, whether their jobs fit into the
budget, and whether it is cancelled. No schedule gets stuck: as long as there are outstanding jobs,
one of them holds its memory or finds it, since what the whole budget does not have is refused at
once. Each stage takes from a credit: an outstanding job has credit for its own stages and for the
result that it may give, a result that is not used yet has half of the credit of a join.

A single worker gets there in the stages that it is given. At the end all permits are returned, so
that the budget is full again.

## Main definitions

* `JoinPlan.resultCount`: the number of results in a plan.
* `SessionState.credit`: a bound for the stages that are left.
* `SessionProver.session`, `SessionProver.after`: the next session of a prover, under a schedule.
* `SessionProver.inOrder`: the session that a single worker has proven to its end.

## Main results

* `SessionState.Stage.credit_lt`: a stage takes from the credit.
* `SessionState.exists_run`: a session can always be brought to its end.
* `SessionProver.exists_ended_schedule`: a single worker follows a schedule to its end.
* `SessionProver.budget_proveSession`: the budget of a prover is full again after each session.
-/

namespace ReplayVM

/-! ### Results in a plan -/

namespace JoinPlan

variable {α : Type} {p p' : JoinPlan α} {id : Nat}

/-- The number of results that a plan holds. -/
def resultCount (p : JoinPlan α) : Nat := p.nodes.countP fun node => node.result.isSome

/-- A change of one node changes the number of results by what it does to this node. -/
theorem countP_modify_add (nodes : Array (PlanNode α)) {node : PlanNode α}
    (hnode : nodes[id]? = some node) (f : PlanNode α → PlanNode α) :
    (nodes.modify id f).countP (fun node => node.result.isSome) +
        (if node.result.isSome then 1 else 0) =
      nodes.countP (fun node => node.result.isSome) +
        (if (f node).result.isSome then 1 else 0) := by
  have hsplit := eq_take_cons_drop ((Array.getElem?_toList ..).trans hnode)
  obtain ⟨hlt, rfl⟩ := Array.getElem?_eq_some_iff.mp hnode
  have hmodify : (nodes.modify id f).toList =
      nodes.toList.take id ++ f nodes[id] :: nodes.toList.drop (id + 1) := by
    rw [Array.toList_modify, List.modify_eq_take_cons_drop (by simpa using hlt),
      Array.getElem_toList]
  have hcount := congrArg (List.countP fun node => node.result.isSome) hsplit
  rw [← Array.countP_toList, ← Array.countP_toList, hmodify, hcount]
  simp only [List.countP_append, List.countP_cons]
  omega

/-- Where there is no node, there is nothing to change. -/
theorem modify_of_getElem?_eq_none {nodes : Array (PlanNode α)} (hnode : nodes[id]? = none)
    (f : PlanNode α → PlanNode α) : nodes.modify id f = nodes := by
  refine Array.ext_getElem? fun j => ?_
  rw [Array.getElem?_modify]
  split
  · rename_i hj
    rw [← hj, hnode]
    rfl
  · rfl

/-- A plan is given one result at a time. -/
theorem resultCount_complete_le (p : JoinPlan α) (id : Nat) (result : α) :
    (p.complete id result).1.resultCount ≤ p.resultCount + 1 := by
  have hstored : (p.nodes.modify id fun node => { node with result := some result }).countP
      (fun node => node.result.isSome) ≤ p.resultCount + 1 := by
    cases hnode : p.nodes[id]? with
    | none =>
      rw [modify_of_getElem?_eq_none hnode]
      exact Nat.le_succ _
    | some node =>
      have := countP_modify_add p.nodes hnode fun node => { node with result := some result }
      simp only [Option.isSome_some, if_true] at this
      rw [resultCount]
      omega
  rw [complete]
  split
  · exact hstored
  · rename_i parent _
    refine Nat.le_trans (Nat.le_of_eq ?_) hstored
    cases hnode : (p.nodes.modify id fun node => { node with result := some result })[parent]? with
    | none => rw [resultCount, modify_of_getElem?_eq_none hnode]
    | some node => exact Nat.add_right_cancel (countP_modify_add _ hnode _)

/-- A result that is taken out of a plan was there. -/
theorem resultCount_take {result : α} (h : p.take id = some (result, p')) :
    p'.resultCount + 1 = p.resultCount := by
  simp only [take, Option.bind_eq_bind, Option.bind_eq_some_iff, Option.pure_def, Option.some.injEq,
    Prod.mk.injEq] at h
  obtain ⟨node, hnode, result, hresult, -, rfl⟩ := h
  simpa [resultCount, hresult] using
    countP_modify_add p.nodes hnode fun node => { node with result := none }

/-- A join takes two results out of a plan. -/
theorem resultCount_takeInputs {results : α × α} (h : p.takeInputs id = some (results, p')) :
    p'.resultCount + 2 = p.resultCount := by
  simp only [takeInputs, Option.bind_eq_bind, Option.bind_eq_some_iff] at h
  obtain ⟨node, -, h⟩ := h
  split at h
  · cases h
  · simp only [Option.bind_eq_some_iff, Option.pure_def, Option.some.injEq, Prod.mk.injEq] at h
    obtain ⟨⟨a, p₁⟩, hleft, ⟨b, p₂⟩, hright, -, rfl⟩ := h
    rw [← resultCount_take hleft, ← resultCount_take hright]

/-- A new plan holds no results. -/
theorem Forest.resultCount_eq_zero {leaves : Nat} {roots : List Nat}
    (h : Forest leaves p.nodes roots) : p.resultCount = 0 := by
  rw [resultCount, Array.countP_eq_zero]
  intro node hnode
  obtain ⟨id, hid⟩ := Array.mem_iff_getElem?.mp hnode
  simp [h.result_eq id node hid]

end JoinPlan

namespace SessionState

variable {o : ProverOptions} {token : CancellationToken} {s s' : SessionState}
  {events : List SessionEvent} {position : Nat}

/-! ### Credit of a session -/

/-- What bounds the stages that are left: the stages of the outstanding jobs, three for the result
of each, and three for each result that is not used, half of what a join has. -/
def credit (s : SessionState) : Nat :=
  (s.outstanding.map fun task => task.state.stagesLeft).sum +
    3 * (s.outstanding.length + s.plan.resultCount)

/-- The result of a job has at most the credit that the job had for it. -/
theorem Ends.credit_le {node : Nat} {result : Except (Stop PipelineError) SuccinctReceipt}
    (h : Ends token s node result events s') : s'.credit ≤ s.credit + 3 := by
  have hcomplete (receipt : SuccinctReceipt) := s.plan.resultCount_complete_le node receipt
  cases h with
  | dropped => exact Nat.le_add_right _ _
  | stops => exact Nat.le_add_right _ _
  | fails => exact Nat.le_add_right _ _
  | @waits receipt =>
    have := hcomplete receipt
    simp only [credit]
    omega
  | @spawns receipt join left right plan _ _ htake =>
    have := hcomplete receipt
    have := JoinPlan.resultCount_takeInputs htake
    simp only [credit, List.map_append, List.map_cons, List.map_nil, List.sum_append, List.sum_cons,
      List.sum_nil, List.length_append, List.length_singleton, JobState.stagesLeft]
    omega
  | @collides receipt =>
    have := hcomplete receipt
    simp only [credit, fail]
    omega

/-- Every stage takes from the credit of a session. -/
theorem Stage.credit_lt (h : Stage token o s position events s') : s'.credit < s.credit := by
  cases h with
  | @runs before task after state budget houtstanding _ hprogress =>
    have hlt := (JobState.advance_running hprogress).1
    simp only [credit, houtstanding, List.map_append, List.map_cons, List.sum_append, List.sum_cons,
      List.length_append, List.length_cons]
    omega
  | @ends before task after result budget events s' houtstanding _ hprogress hends =>
    have hpos := task.state.stagesLeft_pos
    have hle := hends.credit_le
    simp only [credit, houtstanding, List.map_append, List.map_cons, List.sum_append,
      List.sum_cons, List.length_append, List.length_cons] at hle ⊢
    omega

/-- Queued jobs have all their stages left. -/
theorem sum_stagesLeft_of_queued {tasks : List Task}
    (h : ∀ task ∈ tasks, ∃ job, task.state = .queued job) :
    (tasks.map fun task => task.state.stagesLeft).sum = 3 * tasks.length := by
  induction tasks with
  | nil => rfl
  | cons task tasks ih =>
    obtain ⟨job, hjob⟩ := h task List.mem_cons_self
    rw [List.map_cons, List.sum_cons, ih fun t ht => h t (List.mem_cons_of_mem task ht), hjob,
      JobState.stagesLeft, List.length_cons, Nat.mul_succ, Nat.add_comm]

/-- A session with little credit has ended. -/
theorem outstanding_eq_nil_of_credit (h : s.credit ≤ 3) : s.outstanding = [] := by
  by_contra hne
  obtain ⟨task, tasks, hcons⟩ := List.exists_cons_of_ne_nil hne
  have hpos := task.state.stagesLeft_pos
  simp only [credit, hcons, List.map_cons, List.sum_cons, List.length_cons] at h
  omega

/-- A new session has the credit for its stages. -/
theorem credit_start_le {segments : List Segment} (hne : segments ≠ [])
    (strategy : ReductionStrategy) (budget : MemoryBudget) (cancellations : Cancellations) :
    (start strategy budget cancellations segments).credit ≤
      (start strategy budget cancellations segments).maxStages + 3 := by
  have hforest := (JoinPlan.make_spec (α := SuccinctReceipt) strategy
    (List.length_pos_iff.mpr hne)).1
  have hsize : (start strategy budget cancellations segments).plan.nodes.size + 1 =
      2 * segments.length := hforest.size_eq
  have hresults : (start strategy budget cancellations segments).plan.resultCount = 0 :=
    hforest.resultCount_eq_zero
  have hlength : (start strategy budget cancellations segments).outstanding.length =
      segments.length := by
    rw [start, List.length_map, List.length_zipIdx]
  rw [credit, sum_stagesLeft_of_queued fun _ => queued_of_mem_start, hresults, hlength, maxStages]
  omega

/-! ### Jobs that can advance -/

/-- A job that has started can advance. -/
theorem moves_of_ne_queued {task : Task} (htask : s.outstanding[position]? = some task)
    (hstarted : ∀ job, task.state ≠ .queued job) : s.Moves token o position := by
  refine ⟨task, htask, fun budget hblocked => ?_⟩
  obtain ⟨-, job, -, hjob, -⟩ := JobState.advance_blocked hblocked
  exact hstarted job hjob

/-- If no job has started, then each of them can advance: the whole budget is available, and more
than that is refused at once. -/
theorem moves_of_queued (token : CancellationToken) (o : ProverOptions)
    (hbalanced : s.budget.Balanced s.permits)
    (hqueued : ∀ task ∈ s.outstanding, ∃ job, task.state = .queued job) {task : Task}
    (htask : s.outstanding[position]? = some task) : s.Moves token o position := by
  refine ⟨task, htask, fun budget hblocked => ?_⟩
  rw [progress] at hblocked
  obtain ⟨-, job, bytes, -, -, hlt, hle⟩ := JobState.advance_blocked hblocked
  rw [permits, flatMap_permit?_of_queued hqueued] at hbalanced
  rw [hbalanced.eq_full, MemoryBudget.full] at hlt
  exact Nat.not_lt.mpr hle hlt

/-- As long as there are outstanding jobs, one of them can advance. -/
theorem exists_moves (token : CancellationToken) (o : ProverOptions)
    (hbalanced : s.budget.Balanced s.permits) (hne : s.outstanding ≠ []) :
    ∃ position, s.Moves token o position := by
  by_cases hqueued : ∀ task ∈ s.outstanding, ∃ job, task.state = .queued job
  · obtain ⟨task, tasks, hcons⟩ := List.exists_cons_of_ne_nil hne
    have htask : s.outstanding[0]? = some task := by simp [hcons]
    exact ⟨0, moves_of_queued token o hbalanced hqueued htask⟩
  · simp only [not_forall, not_exists] at hqueued
    obtain ⟨task, htask, hstarted⟩ := hqueued
    obtain ⟨position, hposition⟩ := List.mem_iff_getElem?.mp htask
    exact ⟨position, moves_of_ne_queued hposition hstarted⟩

/-- A session can always be brought to its end. -/
theorem exists_run (token : CancellationToken) (o : ProverOptions)
    (hbalanced : s.budget.Balanced s.permits) :
    ∃ schedule, (s.run token o schedule).outstanding = [] := by
  induction hcredit : s.credit using Nat.strongRecOn generalizing s with
  | ind credit ih =>
    by_cases hempty : s.outstanding = []
    · exact ⟨[], hempty⟩
    · obtain ⟨position, hmoves⟩ := exists_moves token o hbalanced hempty
      obtain hstage | ⟨hstays, -⟩ := s.advance_cases token o position
      · obtain ⟨schedule, hschedule⟩ :=
          ih _ (hcredit ▸ hstage.credit_lt) (hstage.change.balanced hbalanced) rfl
        exact ⟨position :: schedule, hschedule⟩
      · exact absurd hmoves hstays

/-! ### A single worker -/

/-- A single worker follows a schedule. -/
theorem exists_run_eq_runInOrder (token : CancellationToken) (o : ProverOptions) (stages : Nat)
    (s : SessionState) : ∃ schedule, s.runInOrder token o stages = s.run token o schedule := by
  induction stages generalizing s with
  | zero => exact ⟨[], rfl⟩
  | succ stages ih =>
    rw [runInOrder]
    split
    · exact ⟨[], rfl⟩
    · obtain ⟨schedule, hschedule⟩ := ih (s.advance token o 0)
      exact ⟨0 :: schedule, hschedule⟩

/-- All outstanding jobs but the first are queued. -/
def InOrder (s : SessionState) : Prop :=
  ∀ task ∈ s.outstanding.tail, ∃ job, task.state = .queued job

/-- If no other job has started, then the first one can advance. -/
theorem InOrder.moves_first (h : s.InOrder) (token : CancellationToken) (o : ProverOptions)
    (hbalanced : s.budget.Balanced s.permits) (hne : s.outstanding ≠ []) : s.Moves token o 0 := by
  obtain ⟨task, tasks, hcons⟩ := List.exists_cons_of_ne_nil hne
  have htask : s.outstanding[0]? = some task := by simp [hcons]
  rw [InOrder, hcons, List.tail_cons] at h
  cases hstate : task.state with
  | queued job =>
    refine moves_of_queued token o hbalanced (fun task' htask' => ?_) htask
    rw [hcons] at htask'
    obtain rfl | hmem := List.mem_cons.mp htask'
    · exact ⟨job, hstate⟩
    · exact h task' hmem
  | working job bytes => exact moves_of_ne_queued htask (by simp [hstate])
  | lifting receipt => exact moves_of_ne_queued htask (by simp [hstate])

/-- A stage of the first job starts no other one. -/
theorem InOrder.stage (h : s.InOrder) (hstage : Stage token o s 0 events s') : s'.InOrder := by
  cases hstage with
  | @runs before task after state budget houtstanding hposition _ =>
    obtain rfl := List.eq_nil_of_length_eq_zero hposition
    rw [InOrder, houtstanding] at h
    exact h
  | @ends before task after result budget events s' houtstanding hposition _ hends =>
    obtain rfl := List.eq_nil_of_length_eq_zero hposition
    obtain ⟨tasks, -, houtstanding', hqueued⟩ := hends.exists_spawned
    rw [InOrder, houtstanding] at h
    intro task' htask'
    have hmem := List.mem_of_mem_tail htask'
    rw [houtstanding'] at hmem
    exact (List.mem_append.mp hmem).elim (h task') (hqueued task')

/-- A single worker with stages for its credit brings a session to its end. -/
theorem InOrder.runInOrder_outstanding (h : s.InOrder) (token : CancellationToken)
    (o : ProverOptions) (hbalanced : s.budget.Balanced s.permits) {stages : Nat}
    (hstages : s.credit ≤ stages + 3) : (s.runInOrder token o stages).outstanding = [] := by
  induction stages generalizing s with
  | zero => exact outstanding_eq_nil_of_credit hstages
  | succ stages ih =>
    rw [runInOrder]
    split
    · rename_i hempty
      exact List.isEmpty_iff.mp hempty
    · rename_i hnonempty
      have hmoves := h.moves_first token o hbalanced
        (fun hnil => hnonempty (List.isEmpty_iff.mpr hnil))
      obtain hstage | ⟨hstays, -⟩ := s.advance_cases token o 0
      · have hlt := hstage.credit_lt
        exact ih (h.stage hstage) (hstage.change.balanced hbalanced) (by omega)
      · exact absurd hmoves hstays

end SessionState

/-! ### Session provers -/

namespace SessionProver

/-- The token of the next session. -/
def sessionToken (p : SessionProver) : CancellationToken := (p.cancellations.child p.token).1

/-- The next session, before any job has advanced. -/
def session (p : SessionProver) (segments : List Segment) : SessionState :=
  .start p.options.reduction p.budget (p.cancellations.child p.token).2 segments

/-- The next session under a schedule. -/
def after (p : SessionProver) (segments : List Segment) (schedule : List Nat) : SessionState :=
  (p.session segments).run p.sessionToken p.options schedule

variable {p : SessionProver} {segments : List Segment}

/-- No job of a new session has a permit. -/
theorem permits_session (p : SessionProver) (segments : List Segment) :
    (p.session segments).permits = [] :=
  SessionState.flatMap_permit?_of_queued fun _ => SessionState.queued_of_mem_start

/-- A new session has the budget of its prover to itself. -/
theorem balanced_session {total : Nat} (hbudget : p.budget = .full total)
    (segments : List Segment) :
    (p.session segments).budget.Balanced (p.session segments).permits := by
  rw [permits_session, session, SessionState.start, hbudget]
  exact MemoryBudget.balanced_full total

/-- The session that a single worker has proven to its end. -/
def inOrder (p : SessionProver) (segments : List Segment) : SessionState :=
  (p.session segments).runInOrder p.sessionToken p.options (p.session segments).maxStages

/-- A prover takes over what its session leaves. -/
theorem proveSession_eq (hne : segments ≠ []) : p.proveSession segments =
    ((p.inOrder segments).result, { p with
      budget := (p.inOrder segments).budget
      cancellations := (p.inOrder segments).cancellations }) := by
  rw [proveSession, if_neg (by simpa using hne)]
  rfl

/-- A prover whose budget is full brings every session to its end. -/
theorem outstanding_inOrder {total : Nat} (hbudget : p.budget = .full total)
    (hne : segments ≠ []) : (p.inOrder segments).outstanding = [] := by
  have hinorder : (p.session segments).InOrder := fun task htask =>
    SessionState.queued_of_mem_start (List.mem_of_mem_tail htask)
  exact hinorder.runInOrder_outstanding p.sessionToken p.options (balanced_session hbudget segments)
    (SessionState.credit_start_le hne p.options.reduction p.budget _)

/-- A prover whose budget is full follows a schedule to the end of a session. -/
theorem exists_ended_schedule {total : Nat} (hbudget : p.budget = .full total)
    (hne : segments ≠ []) : ∃ schedule, (p.after segments schedule).outstanding = [] ∧
      p.inOrder segments = p.after segments schedule := by
  obtain ⟨schedule, hschedule⟩ := SessionState.exists_run_eq_runInOrder p.sessionToken p.options
    (p.session segments).maxStages (p.session segments)
  have hafter : p.inOrder segments = p.after segments schedule := hschedule
  exact ⟨schedule, hafter ▸ outstanding_inOrder hbudget hne, hafter⟩

/-- Under every schedule, the budget is full again when a session has ended. -/
theorem budget_after_of_ended {total : Nat} (hbudget : p.budget = .full total)
    {schedule : List Nat} (hended : (p.after segments schedule).outstanding = []) :
    (p.after segments schedule).budget = .full total := by
  rw [after] at hended ⊢
  obtain ⟨hbalanced, htotal⟩ := SessionState.balanced_run p.sessionToken p.options schedule
    (balanced_session hbudget segments)
  rw [SessionState.permits_eq_nil hended] at hbalanced
  have hsame : (p.session segments).budget.total = total := congrArg MemoryBudget.total hbudget
  exact hbalanced.eq_full.trans (congrArg MemoryBudget.full (htotal.trans hsame))

/-- The budget of a prover is full again after each session. -/
theorem budget_proveSession {total : Nat} (hbudget : p.budget = .full total)
    (segments : List Segment) : (p.proveSession segments).2.budget = .full total := by
  by_cases hne : segments = []
  · subst hne
    exact hbudget
  · obtain ⟨schedule, hended, hafter⟩ := exists_ended_schedule hbudget hne
    rw [proveSession_eq hne, hafter]
    exact budget_after_of_ended hbudget hended

end SessionProver

end ReplayVM
