import Mathlib.Algebra.BigOperators.Group.List.Basic
import Mathlib.Algebra.Ring.Nat
import ReplayVM.Proofs.SessionHistories

/-!
# Live permits

A job that was granted memory has a permit for it, until it gives the memory back. Every stage of a
job leaves the budget and the permits as they are, takes what a new permit is for from the budget,
or gives back what one of the permits was for. What is available and what the permits are for
therefore always make up the whole budget.

## Main definitions

* `MemoryBudget.Change`: a permit is granted, or returned.
* `MemoryBudget.Balanced`: what is available and what the permits are for make up the budget.
* `SessionState.permits`: the permits of the jobs of a session.

## Main results

* `SessionState.Stage.change`: what a stage does to the budget and the permits.
* `SessionState.balanced_run`: the budget stays balanced under every schedule.
-/

namespace ReplayVM

/-- A list around one of its elements. -/
theorem eq_take_cons_drop {α : Type} {items : List α} {position : Nat} {item : α}
    (h : items[position]? = some item) :
    items = items.take position ++ item :: items.drop (position + 1) := by
  obtain ⟨hlt, rfl⟩ := List.getElem?_eq_some_iff.mp h
  rw [List.getElem_cons_drop, List.take_append_drop]

/-! ### Budgets and permits -/

namespace MemoryBudget

variable {b b' : MemoryBudget} {permits permits' : List Nat}

/-- A budget and the live permits before and after a change. -/
inductive Change (b : MemoryBudget) (permits : List Nat) : MemoryBudget → List Nat → Prop
  | takes {permits' : List Nat} {bytes : Nat} (hle : bytes ≤ b.available)
    (hperm : permits'.Perm (bytes :: permits)) :
    Change b permits { b with available := b.available - bytes } permits'
  | gives {permits' : List Nat} {bytes : Nat} (hperm : permits.Perm (bytes :: permits')) :
    Change b permits (b.release bytes) permits'
  | keeps {permits' : List Nat} (hperm : permits.Perm permits') : Change b permits b permits'

/-- What is available and what the permits are for make up the budget. -/
def Balanced (b : MemoryBudget) (permits : List Nat) : Prop :=
  b.available + permits.sum = b.total

/-- No change is about the size of the budget. -/
theorem Change.total_eq (h : Change b permits b' permits') : b'.total = b.total := by
  cases h <;> rfl

/-- What is not available any more, the permits are for. -/
theorem Change.available_add_sum (h : Change b permits b' permits') :
    b'.available + permits'.sum = b.available + permits.sum := by
  cases h with
  | takes hle hperm =>
    rw [hperm.sum_eq, List.sum_cons]
    dsimp only
    omega
  | gives hperm =>
    rw [hperm.sum_eq, List.sum_cons, release]
    dsimp only
    omega
  | keeps hperm => rw [hperm.sum_eq]

theorem Change.balanced (h : Change b permits b' permits') (hbalanced : b.Balanced permits) :
    b'.Balanced permits' := by
  rw [Balanced, h.available_add_sum, h.total_eq]
  exact hbalanced

/-- Permits of others have no part in a change. -/
theorem Change.frame (h : Change b permits b' permits') (before after : List Nat) :
    Change b (before ++ permits ++ after) b' (before ++ permits' ++ after) := by
  have hinside {bytes : Nat} {permits permits' : List Nat}
      (hperm : permits'.Perm (bytes :: permits)) :
      (before ++ permits' ++ after).Perm (bytes :: (before ++ permits ++ after)) := by
    refine ((hperm.append_left before).append_right after).trans ?_
    rw [List.append_assoc, List.append_assoc]
    exact List.perm_middle
  cases h with
  | takes hle hperm => exact .takes hle (hinside hperm)
  | gives hperm => exact .gives (hinside hperm)
  | keeps hperm => exact .keeps ((hperm.append_left before).append_right after)

/-- There is room for what comes back. -/
theorem Balanced.available_add_le (h : b.Balanced permits) {bytes : Nat}
    (hbytes : bytes ∈ permits) : b.available + bytes ≤ b.total := by
  rw [Balanced, (List.perm_cons_erase hbytes).sum_eq, List.sum_cons] at h
  omega

/-- Nothing is reserved in a full budget. -/
theorem balanced_full (total : Nat) : (full total).Balanced [] := rfl

/-- A budget without live permits is full. -/
theorem Balanced.eq_full (h : b.Balanced []) : b = .full b.total := by
  obtain ⟨total, available⟩ := b
  simp only [Balanced, List.sum_nil, Nat.add_zero] at h
  rw [h, full]

/-- What the whole budget does not have is refused, and everything to the cancelled. -/
theorem exists_refused {bytes : Nat} {cancelled : Bool} (h : b.total < bytes ∨ cancelled = true) :
    ∃ cause, b.acquire bytes cancelled = (.refused cause, b) := by
  rw [acquire]
  by_cases hlt : b.total < bytes
  · exact ⟨_, if_pos hlt⟩
  · rw [if_neg hlt, if_pos (h.resolve_left hlt)]
    exact ⟨_, rfl⟩

end MemoryBudget

open MemoryBudget (Change Balanced)

/-! ### Permits of jobs -/

namespace JobState

variable {o : ProverOptions} {cancelled : Bool} {b b' : MemoryBudget} {state state' : JobState}
  {result : Except (Stop PipelineError) SuccinctReceipt}

/-- The permit of a job, for as long as it holds memory. -/
def permit? : JobState → Option Nat
  | .working _ bytes => some bytes
  | _ => none

/-- A job that goes on was granted its memory, or has given it back. -/
theorem change_of_running (h : state.advance o cancelled b = .running state' b') :
    Change b state.permit?.toList b' state'.permit?.toList := by
  cases state with
  | queued job =>
    obtain ⟨-, bytes, -, hacquire, rfl⟩ := reserve_running h
    obtain ⟨hle, rfl⟩ := MemoryBudget.acquire_granted hacquire
    exact .takes hle (List.Perm.refl _)
  | working job bytes =>
    obtain ⟨rfl, s, receipt, -, -, rfl⟩ := work_running h
    exact .gives (List.Perm.refl _)
  | lifting receipt => simp [advance] at h

/-- A job that ends has no permit any more. -/
theorem change_of_finished (h : state.advance o cancelled b = .finished result b') :
    Change b state.permit?.toList b' [] := by
  cases state with
  | queued job =>
    rw [reserve_finished h]
    exact .keeps (List.Perm.refl _)
  | working job bytes =>
    obtain ⟨rfl, -⟩ := work_finished h
    exact .gives (List.Perm.refl _)
  | lifting receipt =>
    cases h
    exact .keeps (List.Perm.refl _)

/-- A queued job that asks for more than the budget has, or is cancelled, ends at once. -/
theorem exists_finished_of_refused {job : Job}
    (h : (∃ bytes, job.demand o = some bytes ∧ b.total < bytes.toNat) ∨ cancelled = true) :
    ∃ cause, (queued job).advance o cancelled b =
      .finished (.error (.reported (.prover cause))) b := by
  rw [advance, reserve]
  split
  · exact ⟨_, rfl⟩
  · rename_i hcancelled
    obtain ⟨bytes, hdemand, hlt⟩ := h.resolve_right hcancelled
    obtain ⟨cause, hrefused⟩ := MemoryBudget.exists_refused (.inl hlt)
    rw [hdemand]
    dsimp only
    rw [hrefused]
    exact ⟨cause, rfl⟩

end JobState

/-! ### Permits of sessions -/

namespace SessionState

variable {o : ProverOptions} {token : CancellationToken} {s s' : SessionState}
  {events : List SessionEvent} {position : Nat}

/-- The live permits of a session. -/
def permits (s : SessionState) : List Nat :=
  s.outstanding.flatMap fun task => task.state.permit?.toList

/-- The permits are for what the jobs hold. -/
theorem sum_permits (s : SessionState) :
    s.permits.sum = (s.outstanding.map fun task => task.state.reserved).sum := by
  rw [permits]
  induction s.outstanding with
  | nil => rfl
  | cons task tasks ih =>
    rw [List.flatMap_cons, List.sum_append, ih, List.map_cons, List.sum_cons]
    cases task.state <;> rfl

/-- Queued jobs have no permits. -/
theorem flatMap_permit?_of_queued {tasks : List Task}
    (h : ∀ task ∈ tasks, ∃ job, task.state = .queued job) :
    (tasks.flatMap fun task => task.state.permit?.toList) = [] := by
  refine List.flatMap_eq_nil_iff.mpr fun task htask => ?_
  obtain ⟨job, hjob⟩ := h task htask
  rw [hjob]
  rfl

/-- The jobs of a new session are queued. -/
theorem queued_of_mem_start {strategy : ReductionStrategy} {budget : MemoryBudget}
    {cancellations : Cancellations} {segments : List Segment} {task : Task}
    (h : task ∈ (start strategy budget cancellations segments).outstanding) :
    ∃ job, task.state = .queued job := by
  obtain ⟨item, -, rfl⟩ := List.mem_map.mp h
  exact ⟨_, rfl⟩

/-- A session without outstanding jobs has returned its permits. -/
theorem permits_eq_nil (h : s.outstanding = []) : s.permits = [] := by
  rw [permits, h]
  rfl

/-- A job that ends leaves the budget and the permits of the others as they are. -/
theorem Ends.permits_eq {node : Nat} {result : Except (Stop PipelineError) SuccinctReceipt}
    (h : Ends token s node result events s') : s'.budget = s.budget ∧ s'.permits = s.permits := by
  obtain ⟨tasks, -, houtstanding, hqueued⟩ := h.exists_spawned
  refine ⟨by cases h <;> rfl, ?_⟩
  rw [permits, houtstanding, List.flatMap_append, flatMap_permit?_of_queued hqueued,
    List.append_nil, permits]

/-- A stage of a job changes the budget and the permits by those of the job. -/
theorem Stage.change (h : Stage token o s position events s') :
    Change s.budget s.permits s'.budget s'.permits := by
  cases h with
  | @runs before task after state budget houtstanding _ hprogress =>
    simpa [permits, houtstanding] using (JobState.change_of_running hprogress).frame
      (before.flatMap fun task => task.state.permit?.toList)
      (after.flatMap fun task => task.state.permit?.toList)
  | @ends before task after result budget events s' houtstanding _ hprogress hends =>
    obtain ⟨hbudget, hpermits⟩ := hends.permits_eq
    rw [hbudget, hpermits]
    simpa [permits, houtstanding] using (JobState.change_of_finished hprogress).frame
      (before.flatMap fun task => task.state.permit?.toList)
      (after.flatMap fun task => task.state.permit?.toList)

/-- So does an advance, unless it is none. -/
theorem change_advance (token : CancellationToken) (o : ProverOptions) (position : Nat)
    (s : SessionState) : Change s.budget s.permits (s.advance token o position).budget
      (s.advance token o position).permits := by
  obtain hstage | ⟨-, hsame, -⟩ := s.advance_cases token o position
  · exact hstage.change
  · rw [hsame]
    exact .keeps (List.Perm.refl _)

/-- The budget of a session stays balanced under every schedule, and keeps its size. -/
theorem balanced_run (token : CancellationToken) (o : ProverOptions) (schedule : List Nat)
    (hbalanced : s.budget.Balanced s.permits) :
    (s.run token o schedule).budget.Balanced (s.run token o schedule).permits ∧
      (s.run token o schedule).budget.total = s.budget.total := by
  induction schedule generalizing s with
  | nil => exact ⟨hbalanced, rfl⟩
  | cons position schedule ih =>
    have hchange := s.change_advance token o position
    obtain ⟨hbalanced', htotal⟩ := ih (hchange.balanced hbalanced)
    exact ⟨hbalanced', htotal.trans hchange.total_eq⟩

end SessionState

end ReplayVM
