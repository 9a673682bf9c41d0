import Mathlib.Data.List.Perm.Subperm
import Mathlib.Logic.Function.Basic
import Mathlib.Tactic.Common
import ReplayVM.Schedule.Session

/-!
# Histories of sessions

The workers of a session are free in which outstanding job they advance next, so that a session is
driven by a schedule: a list of positions among the outstanding jobs. What the session does is seen
in its history, in which jobs are spawned and end.

## Main definitions

* `JobState.outcome`: what a job ends with if nothing cancels it.
* `SessionEvent`, `SessionState.events`: what an advance adds to the history.
* `SessionState.run`, `SessionState.history`: a session under a schedule.
* `SessionEvent.Lawful`: each node of a plan is spawned once at most, with what its inputs gave.

## Main results

* `SessionState.advance_cases`: what an advance does.
-/

namespace ReplayVM

/-! ### Memory -/

namespace MemoryBudget

variable {b left : MemoryBudget} {bytes : Nat} {cancelled : Bool} {cause : ProverError}

/-- Memory that is granted was available, and is taken from the budget. -/
theorem acquire_granted (h : b.acquire bytes cancelled = (.granted, left)) :
    bytes ≤ b.available ∧ left = { b with available := b.available - bytes } := by
  rw [acquire] at h
  split_ifs at h with htotal hcancelled havailable <;> cases h
  exact ⟨havailable, rfl⟩

/-- A job waits for memory that is in the budget but not available. It leaves the budget as it
is. -/
theorem acquire_waiting (h : b.acquire bytes cancelled = (.waiting, left)) :
    left = b ∧ b.available < bytes ∧ bytes ≤ b.total := by
  rw [acquire] at h
  split_ifs at h with htotal hcancelled havailable <;> cases h
  exact ⟨rfl, Nat.lt_of_not_le havailable, Nat.le_of_not_lt htotal⟩

/-- Refused are jobs that ask for more than the budget has, and those that are cancelled. They leave
the budget as it is. -/
theorem acquire_refused (h : b.acquire bytes cancelled = (.refused cause, left)) :
    left = b ∧ (b.total < bytes ∨ cancelled = true) := by
  rw [acquire] at h
  split_ifs at h with htotal hcancelled havailable <;> cases h
  · exact ⟨rfl, .inl htotal⟩
  · exact ⟨rfl, .inr hcancelled⟩

end MemoryBudget

/-! ### Outcomes of jobs -/

/-- A job that reserves no more than so many bytes. -/
def Job.Within (o : ProverOptions) (total : Nat) (job : Job) : Prop :=
  ∃ bytes, job.demand o = some bytes ∧ bytes.toNat ≤ total

/-- What a job ends with, with so many bytes for its witness. -/
def Job.outcome (total : Nat) : Job → Except (Stop PipelineError) SuccinctReceipt
  | .prove s => ((s.prove total fun _ => false).mapError (.map .prover)).bind fun receipt =>
    receipt.lift.mapError fun cause => .reported (.recursion cause)
  | .join left right => (left.join right).mapError (.map .recursion)

namespace JobState

variable {o : ProverOptions} {cancelled : Bool} {b b' : MemoryBudget} {state state' : JobState}
  {result : Except (Stop PipelineError) SuccinctReceipt}

/-- What the job ends with. -/
def outcome (total : Nat) : JobState → Except (Stop PipelineError) SuccinctReceipt
  | .queued job => job.outcome total
  | .working job _ => job.outcome total
  | .lifting receipt => receipt.lift.mapError fun cause => .reported (.recursion cause)

/-- The bytes that the job holds. -/
def reserved : JobState → Nat
  | .working _ bytes => bytes
  | _ => 0

/-- The most stages that are left to the job. -/
def stagesLeft : JobState → Nat
  | .queued _ => 3
  | .working _ _ => 2
  | .lifting _ => 1

theorem stagesLeft_pos (state : JobState) : 0 < state.stagesLeft := by
  cases state <;> simp [stagesLeft]

/-- A queued job that goes on was granted its memory. -/
theorem reserve_running {job : Job} (h : reserve o cancelled b job = .running state' b') :
    cancelled = false ∧ ∃ bytes, job.demand o = some bytes ∧
      b.acquire bytes.toNat cancelled = (.granted, b') ∧ state' = .working job bytes.toNat := by
  rw [reserve] at h
  split at h
  · cases h
  · rename_i hcancelled
    split at h
    · cases h
    · rename_i bytes hdemand
      split at h
      · rename_i left hacquire
        cases h
        exact ⟨by simpa using hcancelled, bytes, hdemand, hacquire, rfl⟩
      · cases h
      · cases h

/-- A queued job that ends has not got any memory. -/
theorem reserve_finished {job : Job} (h : reserve o cancelled b job = .finished result b') :
    b' = b := by
  rw [reserve] at h
  split at h
  · cases h
    rfl
  · split at h
    · cases h
      rfl
    · split at h
      · cases h
      · rename_i hacquire
        cases h
        exact (MemoryBudget.acquire_refused hacquire).1
      · cases h

/-- A queued job that waits asks for memory that others hold, and leaves the budget as it is. -/
theorem reserve_blocked {job : Job} (h : reserve o cancelled b job = .blocked b') :
    b' = b ∧ ∃ bytes, job.demand o = some bytes ∧ b.available < bytes.toNat ∧
      bytes.toNat ≤ b.total := by
  rw [reserve] at h
  split at h
  · cases h
  · split at h
    · cases h
    · rename_i bytes hdemand
      split at h
      · cases h
      · cases h
      · rename_i hacquire
        cases h
        obtain ⟨rfl, hless⟩ := MemoryBudget.acquire_waiting hacquire
        exact ⟨rfl, bytes, hdemand, hless⟩

/-- Work that goes on is that on a segment, which was proven. -/
theorem work_running {job : Job} {bytes : Nat}
    (h : work cancelled b job bytes = .running state' b') :
    b' = b.release bytes ∧ ∃ s receipt, job = .prove s ∧
      s.prove b.total (fun _ => cancelled) = .ok receipt ∧ state' = .lifting receipt := by
  cases job with
  | join l r => simp [work] at h
  | prove s =>
    simp only [work] at h
    split at h
    · rename_i receipt hprove
      cases h
      exact ⟨rfl, s, receipt, rfl, hprove, rfl⟩
    · cases h

/-- A stage that does not end a job accounts for the memory it holds. -/
theorem advance_running (h : state.advance o cancelled b = .running state' b') :
    state'.stagesLeft < state.stagesLeft ∧ b'.total = b.total ∧
      b'.available + state'.reserved = b.available + state.reserved := by
  cases state with
  | queued job =>
    obtain ⟨-, bytes, -, hacquire, rfl⟩ := reserve_running h
    obtain ⟨hle, rfl⟩ := MemoryBudget.acquire_granted hacquire
    exact ⟨by simp [stagesLeft], rfl, Nat.sub_add_cancel hle⟩
  | working job bytes =>
    obtain ⟨rfl, s, receipt, -, -, rfl⟩ := work_running h
    exact ⟨by simp [stagesLeft], rfl, rfl⟩
  | lifting receipt => simp [advance] at h

/-- A job that goes on is not queued any more. -/
theorem ne_queued_of_running (h : state.advance o cancelled b = .running state' b') (job : Job) :
    state' ≠ .queued job := by
  cases state with
  | queued job =>
    obtain ⟨-, bytes, -, -, rfl⟩ := reserve_running h
    simp
  | working job bytes =>
    obtain ⟨-, s, receipt, -, -, rfl⟩ := work_running h
    simp
  | lifting receipt => simp [advance] at h

/-- Work gives back the memory when it ends. -/
theorem work_finished {job : Job} {bytes : Nat}
    (h : work cancelled b job bytes = .finished result b') :
    b' = b.release bytes ∧ (cancelled = false → result = job.outcome b.total) := by
  cases job with
  | join l r =>
    cases h
    exact ⟨rfl, fun _ => rfl⟩
  | prove s =>
    simp only [work] at h
    split at h
    · cases h
    · rename_i cause hprove
      cases h
      refine ⟨rfl, ?_⟩
      rintro rfl
      change s.prove b.total (fun _ => false) = .error cause at hprove
      rw [Job.outcome, hprove]
      rfl

/-- A job that ends gives back the memory it holds. -/
theorem advance_finished (h : state.advance o cancelled b = .finished result b') :
    b'.total = b.total ∧ b'.available = b.available + state.reserved := by
  cases state with
  | queued job =>
    obtain rfl := reserve_finished h
    exact ⟨rfl, rfl⟩
  | working job bytes =>
    obtain ⟨rfl, -⟩ := work_finished h
    exact ⟨rfl, rfl⟩
  | lifting receipt =>
    cases h
    exact ⟨rfl, rfl⟩

/-- Only a queued job waits, for memory that others hold, and it leaves the budget as it is. -/
theorem advance_blocked (h : state.advance o cancelled b = .blocked b') :
    b' = b ∧ ∃ job bytes, state = .queued job ∧ job.demand o = some bytes ∧
      b.available < bytes.toNat ∧ bytes.toNat ≤ b.total := by
  cases state with
  | queued job =>
    obtain ⟨hsame, bytes, hdemand, hless⟩ := reserve_blocked h
    exact ⟨hsame, job, bytes, rfl, hdemand, hless⟩
  | working job bytes =>
    cases job with
    | prove s =>
      simp only [advance, work] at h
      split at h <;> cases h
    | join l r => simp [advance, work] at h
  | lifting receipt => simp [advance] at h

/-- What a job ends with does not change as it goes on. -/
theorem outcome_of_running (h : state.advance o false b = .running state' b') :
    state'.outcome b.total = state.outcome b.total := by
  cases state with
  | queued job =>
    obtain ⟨-, bytes, -, -, rfl⟩ := reserve_running h
    rfl
  | working job bytes =>
    obtain ⟨-, s, receipt, rfl, hprove, rfl⟩ := work_running h
    rw [outcome, outcome, Job.outcome, hprove]
    rfl
  | lifting receipt => simp [advance] at h

/-- A job that is not cancelled and fits into the budget ends with its outcome. -/
theorem outcome_of_finished
    (hfits : ∀ job, state = .queued job → job.Within o b.total)
    (h : state.advance o false b = .finished result b') : result = state.outcome b.total := by
  cases state with
  | queued job =>
    obtain ⟨bytes, hdemand, hle⟩ := hfits job rfl
    simp only [advance, reserve, Bool.false_eq_true, if_false, hdemand] at h
    split at h
    · cases h
    · rename_i hacquire
      obtain ⟨-, hlt | hcancelled⟩ := MemoryBudget.acquire_refused hacquire
      · exact absurd hle (Nat.not_le_of_lt hlt)
      · cases hcancelled
    · cases h
  | working job bytes => exact (work_finished h).2 rfl
  | lifting receipt =>
    cases h
    rfl

/-- No job fails for the bookkeeping of its session. -/
theorem outcome_ne_workerPool (total : Nat) (cause : PoolError) :
    state.outcome total ≠ .error (.reported (.workerPool cause)) := by
  have hmap {ε : Type} (x : Except ε SuccinctReceipt) (f : ε → Stop PipelineError)
      (hf : ∀ e, f e ≠ .reported (.workerPool cause)) :
      x.mapError f ≠ .error (.reported (.workerPool cause)) := by
    cases x with
    | error e => simpa [Except.mapError] using hf e
    | ok a => simp [Except.mapError]
  have hlift (receipt : SegmentReceipt) :
      (receipt.lift.mapError fun e => Stop.reported (PipelineError.recursion e)) ≠
        .error (.reported (.workerPool cause)) := hmap _ _ (by simp)
  have hjob (job : Job) : job.outcome total ≠ .error (.reported (.workerPool cause)) := by
    cases job with
    | prove s =>
      cases hprove : s.prove total fun _ => false with
      | error e => cases e <;> simp [Job.outcome, hprove, Except.mapError, Except.bind, Stop.map]
      | ok receipt => simpa [Job.outcome, hprove, Except.mapError, Except.bind] using hlift receipt
    | join l r => exact hmap _ _ fun e => by cases e <;> simp [Stop.map]
  cases state with
  | queued job => exact hjob job
  | working job bytes => exact hjob job
  | lifting receipt => exact hlift receipt

end JobState

/-! ### Events -/

/-- What happens in a session: a job is spawned, or the job of a node ends. -/
inductive SessionEvent where
  | spawned (task : Task)
  | completed (node : Nat) (result : Except (Stop PipelineError) SuccinctReceipt)

namespace SessionEvent

variable {log : List SessionEvent} {id : Nat} {receipt : SuccinctReceipt}

/-- The node whose job an event spawns. -/
def spawnedNode? : SessionEvent → Option Nat
  | .spawned task => some task.node
  | .completed _ _ => none

/-- The node whose job an event ends. -/
def completedNode? : SessionEvent → Option Nat
  | .spawned _ => none
  | .completed node _ => some node

/-- The receipt that an event brings for a node. -/
def receiptOf? (id : Nat) : SessionEvent → Option SuccinctReceipt
  | .completed node (.ok receipt) => if node = id then some receipt else none
  | _ => none

/-- The nodes whose jobs were spawned. -/
def spawnedNodes (log : List SessionEvent) : List Nat := log.filterMap spawnedNode?

/-- The nodes whose jobs ended. -/
def completedNodes (log : List SessionEvent) : List Nat := log.filterMap completedNode?

/-- The receipts of the jobs that ended with one. -/
def received (log : List SessionEvent) (id : Nat) : Option SuccinctReceipt :=
  log.findSome? (receiptOf? id)

@[simp] theorem spawnedNodes_append (log log' : List SessionEvent) :
    spawnedNodes (log ++ log') = spawnedNodes log ++ spawnedNodes log' :=
  List.filterMap_append

@[simp] theorem completedNodes_append (log log' : List SessionEvent) :
    completedNodes (log ++ log') = completedNodes log ++ completedNodes log' :=
  List.filterMap_append

@[simp] theorem spawnedNodes_spawned (task : Task) : spawnedNodes [.spawned task] = [task.node] :=
  rfl

@[simp] theorem completedNodes_spawned (task : Task) : completedNodes [.spawned task] = [] := rfl

@[simp] theorem spawnedNodes_completed (id : Nat)
    (result : Except (Stop PipelineError) SuccinctReceipt) :
    spawnedNodes [.completed id result] = [] := rfl

@[simp] theorem completedNodes_completed (id : Nat)
    (result : Except (Stop PipelineError) SuccinctReceipt) :
    completedNodes [.completed id result] = [id] := rfl

/-- The spawned nodes of a history that only spawns. -/
theorem spawnedNodes_map_spawned (tasks : List Task) :
    spawnedNodes (tasks.map .spawned) = tasks.map Task.node := by
  induction tasks with
  | nil => rfl
  | cons task tasks ih => exact congrArg (task.node :: ·) ih

theorem completedNodes_map_spawned (tasks : List Task) :
    completedNodes (tasks.map .spawned) = [] := by
  induction tasks with
  | nil => rfl
  | cons task tasks ih => exact ih

theorem received_map_spawned (tasks : List Task) :
    received (tasks.map .spawned) = fun _ => none := by
  funext id
  induction tasks with
  | nil => rfl
  | cons task tasks ih => exact ih

@[simp] theorem received_append_spawned (log : List SessionEvent) (task : Task) :
    received (log ++ [.spawned task]) = received log := by
  funext id
  simp [received, List.findSome?_append, receiptOf?]

/-- A receipt is received for a node that has none yet. -/
theorem received_append_ok (receipt : SuccinctReceipt) (hnone : received log id = none) :
    received (log ++ [.completed id (.ok receipt)]) =
      Function.update (received log) id (some receipt) := by
  funext j
  rw [received, List.findSome?_append, ← received]
  by_cases hj : j = id
  · subst hj
    simp [hnone, receiptOf?]
  · simp [receiptOf?, Function.update_of_ne hj, Ne.symm hj]

/-- A receipt that was received came with the end of a job. -/
theorem mem_of_received (h : received log id = some receipt) :
    .completed id (.ok receipt) ∈ log := by
  obtain ⟨event, hmem, hevent⟩ := List.exists_of_findSome?_eq_some h
  cases event with
  | spawned task => simp [receiptOf?] at hevent
  | completed node result =>
    cases result with
    | error cause => simp [receiptOf?] at hevent
    | ok r =>
      simp only [receiptOf?, Option.ite_none_right_eq_some, Option.some.injEq] at hevent
      obtain ⟨rfl, rfl⟩ := hevent
      exact hmem

/-- The job of a node with a receipt has ended. -/
theorem mem_completedNodes_of_received (h : received log id = some receipt) :
    id ∈ completedNodes log :=
  List.mem_filterMap.mpr ⟨_, mem_of_received h, rfl⟩

/-- A history in which a node is spawned once at most and before it ends: the node of a segment with
this segment, and a join behind the ends of its inputs with what they gave. -/
inductive Lawful (nodes : Array (PlanNode SuccinctReceipt)) (segments : List Segment) :
    List SessionEvent → Prop
  | nil : Lawful nodes segments []
  | segment {log id node number segment} (h : Lawful nodes segments log)
      (hnew : id ∉ spawnedNodes log) (hnode : nodes[id]? = some node)
      (hkind : node.kind = .leaf number) (hsegment : segments[number]? = some segment) :
      Lawful nodes segments (log ++ [.spawned ⟨id, .queued (.prove segment)⟩])
  | join {log id node left right a b} (h : Lawful nodes segments log)
      (hnew : id ∉ spawnedNodes log) (hnode : nodes[id]? = some node)
      (hkind : node.kind = .join left right) (hleft : .completed left (.ok a) ∈ log)
      (hright : .completed right (.ok b) ∈ log) :
      Lawful nodes segments (log ++ [.spawned ⟨id, .queued (.join a b)⟩])
  | completed {log id result} (h : Lawful nodes segments log) (hspawned : id ∈ spawnedNodes log)
      (hnew : id ∉ completedNodes log) : Lawful nodes segments (log ++ [.completed id result])

/-- No node is spawned twice. -/
theorem Lawful.nodup {nodes : Array (PlanNode SuccinctReceipt)} {segments : List Segment}
    (h : Lawful nodes segments log) : (spawnedNodes log).Nodup := by
  have hconcat {log : List SessionEvent} {task : Task} (ih : (spawnedNodes log).Nodup)
      (hnew : task.node ∉ spawnedNodes log) : (spawnedNodes (log ++ [.spawned task])).Nodup := by
    rw [spawnedNodes_append, spawnedNodes_spawned]
    exact List.nodup_append.mpr ⟨ih, List.nodup_cons.mpr ⟨List.not_mem_nil, List.nodup_nil⟩, by
      rintro a ha b hb rfl
      exact hnew (List.mem_singleton.mp hb ▸ ha)⟩
  induction h with
  | nil => exact List.nodup_nil
  | segment _ hnew _ _ _ ih => exact hconcat ih hnew
  | join _ hnew _ _ _ _ ih => exact hconcat ih hnew
  | completed _ _ _ ih => simpa using ih

end SessionEvent

/-! ### Sessions under a schedule -/

namespace SessionState

variable (token : CancellationToken) (o : ProverOptions)

/-- What the next stage of a task leads to. -/
def progress (s : SessionState) (task : Task) : JobProgress :=
  task.state.advance o (s.cancellations.isCancelled token) s.budget

/-- What an advance adds to the history: the end of the job, and the jobs behind those that were
outstanding. -/
def events (position : Nat) (s : SessionState) : List SessionEvent :=
  match s.outstanding[position]? with
  | none => []
  | some task =>
    match s.progress token o task with
    | .finished result _ =>
      .completed task.node result :: (((s.advance token o position).outstanding.drop
        (s.outstanding.eraseIdx position).length).map .spawned)
    | _ => []

/-- A session after the jobs at some positions have advanced, one after the other. -/
def run : (schedule : List Nat) → SessionState → SessionState
  | [], s => s
  | position :: schedule, s => run schedule (s.advance token o position)

/-- What happens in the meantime. -/
def history : (schedule : List Nat) → SessionState → List SessionEvent
  | [], _ => []
  | position :: schedule, s =>
    s.events token o position ++ history schedule (s.advance token o position)

/-- A schedule can be carried on. -/
theorem run_append (schedule more : List Nat) (s : SessionState) :
    s.run token o (schedule ++ more) = (s.run token o schedule).run token o more := by
  induction schedule generalizing s with
  | nil => rfl
  | cons position schedule ih => exact ih _

/-- What the end of a job leads to. -/
inductive Ends (s : SessionState) (node : Nat) :
    Except (Stop PipelineError) SuccinctReceipt → List SessionEvent → SessionState → Prop
  | dropped {result} (hfailure : s.failure.isSome) (hresult : result ≠ .error .overflow) :
      Ends s node result [] s
  | stops (hfailure : s.failure.isSome) :
      Ends s node (.error .overflow) [] (s.fail token .overflow)
  | fails {cause} (hfailure : s.failure = none) : Ends s node (.error cause) [] (s.fail token cause)
  | waits {receipt} (hfailure : s.failure = none)
      (hready : (s.plan.complete node receipt).2 = none) :
      Ends s node (.ok receipt) [] { s with plan := (s.plan.complete node receipt).1 }
  | spawns {receipt join left right plan} (hfailure : s.failure = none)
      (hready : (s.plan.complete node receipt).2 = some join)
      (htake : (s.plan.complete node receipt).1.takeInputs join = some ((left, right), plan)) :
      Ends s node (.ok receipt) [.spawned ⟨join, .queued (.join left right)⟩]
        { s with
          plan := plan
          outstanding := s.outstanding ++ [⟨join, .queued (.join left right)⟩] }
  | collides {receipt join} (hfailure : s.failure = none)
      (hready : (s.plan.complete node receipt).2 = some join)
      (htake : (s.plan.complete node receipt).1.takeInputs join = none) :
      Ends s node (.ok receipt) [] (({ s with plan := (s.plan.complete node receipt).1 }).fail token
        (.reported (.workerPool (.scheduledTwice join))))

/-- What a stage of the outstanding job at a position leads to. -/
inductive Stage (s : SessionState) (position : Nat) : List SessionEvent → SessionState → Prop
  | runs {before task after state budget} (houtstanding : s.outstanding = before ++ task :: after)
      (hposition : before.length = position)
      (hprogress : s.progress token o task = .running state budget) :
      Stage s position [] { s with
        outstanding := before ++ { task with state := state } :: after
        budget := budget }
  | ends {before task after result budget events s'}
      (houtstanding : s.outstanding = before ++ task :: after)
      (hposition : before.length = position)
      (hprogress : s.progress token o task = .finished result budget)
      (hends : Ends token { s with outstanding := before ++ after, budget := budget } task.node
        result events s') :
      Stage s position (.completed task.node result :: events) s'

/-- A job at a position can advance. -/
def Moves (s : SessionState) (position : Nat) : Prop :=
  ∃ task, s.outstanding[position]? = some task ∧
    ∀ budget, s.progress token o task ≠ .blocked budget

variable {token o}

/-- The end of a job leads to one of these states. -/
theorem ends_finish (s : SessionState) (node : Nat)
    (result : Except (Stop PipelineError) SuccinctReceipt) :
    Ends token s node result (((s.finish token node result).outstanding.drop
      s.outstanding.length).map .spawned) (s.finish token node result) := by
  by_cases hfailure : s.failure.isSome
  · match result with
    | .error .overflow => simpa [finish, fail] using Ends.stops hfailure
    | .error (.reported cause) =>
      have hdropped : Ends token s node (.error (.reported cause)) [] s := .dropped hfailure nofun
      simpa [finish, hfailure] using hdropped
    | .ok receipt =>
      have hdropped : Ends token s node (.ok receipt) [] s := .dropped hfailure nofun
      simpa [finish, hfailure] using hdropped
  · have hnone : s.failure = none := by simpa using hfailure
    match result with
    | .error .overflow => simpa [finish, fail] using Ends.fails hnone
    | .error (.reported cause) => simpa [finish, hfailure, fail] using Ends.fails hnone
    | .ok receipt =>
      cases hready : (s.plan.complete node receipt).2 with
      | none => simpa [finish, complete, hfailure, hready] using Ends.waits hnone hready
      | some join =>
        cases htake : (s.plan.complete node receipt).1.takeInputs join with
        | none =>
          simpa [finish, complete, hfailure, hready, spawnJoin, htake, fail] using
            Ends.collides hnone hready htake
        | some taken =>
          obtain ⟨⟨left, right⟩, plan⟩ := taken
          simpa [finish, complete, hfailure, hready, spawnJoin, htake] using
            Ends.spawns hnone hready htake

/-- The end of a job spawns what it puts behind the outstanding jobs, which is queued. -/
theorem Ends.exists_spawned {s s' : SessionState} {node : Nat}
    {result : Except (Stop PipelineError) SuccinctReceipt} {events : List SessionEvent}
    (h : Ends token s node result events s') :
    ∃ tasks : List Task, events = tasks.map .spawned ∧ s'.outstanding = s.outstanding ++ tasks ∧
      ∀ task ∈ tasks, ∃ job, task.state = .queued job := by
  have hnothing {s' : SessionState} (hsame : s'.outstanding = s.outstanding) :
      ∃ tasks : List Task, ([] : List SessionEvent) = tasks.map .spawned ∧
        s'.outstanding = s.outstanding ++ tasks ∧ ∀ task ∈ tasks, ∃ job, task.state = .queued job :=
    ⟨[], rfl, by rw [hsame, List.append_nil], by simp⟩
  cases h with
  | dropped => exact hnothing rfl
  | stops => exact hnothing rfl
  | fails => exact hnothing rfl
  | waits => exact hnothing rfl
  | @spawns _ join left right => exact ⟨[⟨join, .queued (.join left right)⟩], rfl, rfl, by simp⟩
  | collides => exact hnothing rfl

/-- An advance is a stage of a job, or leaves a session as it is. -/
theorem advance_cases (token : CancellationToken) (o : ProverOptions) (s : SessionState)
    (position : Nat) :
    Stage token o s position (s.events token o position) (s.advance token o position) ∨
    (¬s.Moves token o position ∧ s.advance token o position = s ∧
      s.events token o position = []) := by
  cases htask : s.outstanding[position]? with
  | none =>
    refine .inr ⟨?_, by simp [advance, htask], by simp [events, htask]⟩
    rintro ⟨task, h, -⟩
    simp [htask] at h
  | some task =>
    obtain ⟨hlt, hget⟩ := List.getElem?_eq_some_iff.mp htask
    have hsplit : s.outstanding =
        s.outstanding.take position ++ task :: s.outstanding.drop (position + 1) := by
      rw [← hget, List.getElem_cons_drop, List.take_append_drop]
    have hlength : (s.outstanding.take position).length = position :=
      List.length_take_of_le (Nat.le_of_lt hlt)
    cases hprogress : s.progress token o task with
    | blocked budget =>
      refine .inr ⟨?_, ?_, by simp [events, htask, hprogress]⟩
      · rintro ⟨task', h, hmoves⟩
        obtain rfl := Option.some.inj (htask.symm.trans h)
        exact hmoves budget hprogress
      · rw [progress] at hprogress
        obtain ⟨rfl, -⟩ := JobState.advance_blocked hprogress
        simp [advance, htask, hprogress]
    | running state budget =>
      have hevents : s.events token o position = [] := by simp [events, htask, hprogress]
      have hruns := Stage.runs hsplit hlength hprogress
      rw [progress] at hprogress
      have hadvance : s.advance token o position =
          { s with
            outstanding := s.outstanding.set position { task with state := state }
            budget := budget } := by
        simp [advance, htask, hprogress]
      rw [hadvance, hevents, List.set_eq_take_append_cons_drop, if_pos hlt]
      exact .inl hruns
    | finished result budget =>
      have hevents : s.events token o position = .completed task.node result ::
          (((s.advance token o position).outstanding.drop
            (s.outstanding.eraseIdx position).length).map .spawned) := by
        simp only [events, htask, hprogress]
      have hends := Stage.ends hsplit hlength hprogress (ends_finish _ task.node result)
      rw [progress] at hprogress
      have hadvance : s.advance token o position =
          { s with
            outstanding := s.outstanding.eraseIdx position
            budget := budget }.finish token task.node result := by
        simp [advance, htask, hprogress]
      rw [hevents, hadvance, List.eraseIdx_eq_take_drop_succ]
      exact .inl hends

end SessionState

end ReplayVM
