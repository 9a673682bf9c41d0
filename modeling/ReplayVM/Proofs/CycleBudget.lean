import ReplayVM.Proofs.PlainRuns
import ReplayVM.Proofs.SessionChains

/-!
# The budget of cycles

A run of an arbitrary guest ends: every segment that is split off has executed an instruction, and
no instruction is executed when the cycles of the session are used up. The session that results
counts its instructions, has hardly more segments than these, and reports that it ran out of cycles
if and only if the guest would have gone on.

## Main definitions

* `Session.WithinBudget`: what a session says about the cycles of its run.

## Main results

* `Live.Runs.length_add_le`: a run has at most one segment more than it executes instructions.
* `Session.withinBudget_run`: the session of a run keeps to its cycles.
* `Session.exists_withinBudget`: every program and every paused machine runs to such a session.
-/

namespace ReplayVM

/-- A run has at most one segment more than it executes instructions. -/
theorem Live.Runs.length_add_le {limits : RunLimits} {index : UInt32} {s : Live} {e : RunEnd}
    (h : Runs limits index s e) : e.segments.length + s.cycles ≤ e.live.cycles + 1 := by
  induction h with
  | @last index s h =>
    have hcycles : (s.segmentEnd limits).live.cycles = s.cycles + (s.segmentEnd limits).count :=
      (stretch_segmentEnd limits s).2.cycles_eq
    simp only [List.length_singleton]
    omega
  | @split index s e h rest ih =>
    have hprogress := (cycles_lt_of_split h).2
    simp only [List.length_cons]
    omega

namespace Session

/-- What a session says about the cycles of the run from a machine: its segments make progress and
keep to their limit, the instructions are counted and keep to the budget, and the session reports
that the budget is used up exactly if the guest goes on for as long. -/
structure WithinBudget (options : ExecutionOptions) (start : Live) (x : Session) : Prop where
  splits : ∀ segment ∈ x.segments, segment.exitCode = .systemSplit →
    0 < segment.instructionCount ∧ segment.instructionCount ≤ options.segmentLimit
  totalCycles_eq : x.info.totalCycles.toNat = Segment.totalCount x.segments
  totalCycles_le : x.info.totalCycles ≤ options.maxCycles
  length_le : x.segments.length ≤ x.info.totalCycles.toNat + 1
  exit_iff : x.info.exitCode = .fault .sessionLimitExceeded ↔
    start.GoesOn options.maxCycles.toNat
  used_up : start.GoesOn options.maxCycles.toNat → x.info.totalCycles = options.maxCycles

variable {options : ExecutionOptions} {params : Params} {size : Nat} {limits : RunLimits}
  {start : Live}

/-- The session of a run keeps to its cycles. -/
theorem withinBudget_run (hlimits : options.limits params size = .ok limits) (index : UInt32)
    (hcycles : start.cycles = 0) (hreplies : start.world.replies = #[]) :
    (ofRun (start.run limits index)).WithinBudget options start := by
  obtain ⟨hsegment, hmax⟩ := ExecutionOptions.limits_lt hlimits
  have hruns := Live.runs_run limits index start
  have hreaches := reaches_run limits index hreplies
  have htotal := hruns.cycles_eq hsegment
  have hle := hruns.cycles_le (by rw [hcycles]; exact Nat.zero_le _)
  have hlen := hruns.length_add_le
  have hexit := Live.exit_unsegmented_iff limits.maxCycles start
  rw [hcycles] at htotal hlen hexit
  rw [Nat.zero_add] at htotal
  have hcount : (ofRun (start.run limits index)).info.totalCycles.toNat =
      (start.run limits index).live.cycles :=
    UInt64.toNat_ofNat_of_lt' (Nat.lt_of_le_of_lt hle hmax)
  refine ⟨fun segment hmem hsplit => ?_, hcount.trans htotal, ?_, hcount ▸ hlen, ?_, ?_⟩
  · obtain ⟨i, hi⟩ := List.mem_iff_getElem?.mp hmem
    obtain ⟨index', t, -, rfl, -⟩ := hruns.exists_start hsegment hi
    have hpos : 0 < (t.segmentEnd limits).count := Live.count_segmentEnd_pos (by
      rw [show (t.segmentEnd limits).exit = .systemSplit from hsplit]
      rfl)
    have hlimit := (Live.stretch_segmentEnd limits t).1
    rw [ExecutionOptions.segmentLimit_of_limits hlimits] at hlimit
    rw [UInt32.lt_iff_toNat_lt, UInt32.le_iff_toNat_le, Live.instructionCount_segment hsegment]
    exact ⟨hpos, hlimit⟩
  · rw [UInt64.le_iff_toNat_le, hcount, ← maxCycles_of_limits hlimits]
    exact hle
  · rw [hreaches.exitCode_eq, hexit, maxCycles_of_limits hlimits, Nat.sub_zero]
  · intro hgoes
    have hused : (start.unsegmented limits.maxCycles).2.cycles = limits.maxCycles := by
      refine Live.cycles_unsegmented (by omega) ?_
      rwa [hcycles, Nat.sub_zero, maxCycles_of_limits hlimits]
    rw [hreaches.totalCycles_eq, hused, maxCycles_of_limits hlimits]
    exact UInt64.ofNat_toNat

/-- **Every run ends within its budget.** Under options that are accepted, every program on every
input and every paused machine on fresh input runs, segment by segment, to a session that keeps to
its cycles. -/
theorem exists_withinBudget (options : ExecutionOptions) (input : Bytes) (limits : RunLimits) :
    (∀ p : Program, options.limits p.params input.length = .ok limits →
      ∃ e, Live.Runs limits 0 (p.live input) e ∧ p.execute input options = .ok (.ofRun e) ∧
        (ofRun e).WithinBudget options (p.live input)) ∧
    ∀ c : Continuation, options.limits c.params input.length = .ok limits →
      ∃ e, Live.Runs limits c.nextSegmentIndex (c.live input) e ∧
        c.resume input options = .ok (.ofRun e) ∧
        (ofRun e).WithinBudget options (c.live input) := by
  constructor
  · intro p hlimits
    exact ⟨_, Live.runs_run _ _ _, Program.execute_eq_ok_iff.mpr ⟨limits, hlimits, rfl⟩,
      withinBudget_run hlimits 0 rfl rfl⟩
  · intro c hlimits
    exact ⟨_, Live.runs_run _ _ _, Continuation.resume_eq_ok_iff.mpr ⟨limits, hlimits, rfl⟩,
      withinBudget_run hlimits c.nextSegmentIndex rfl rfl⟩

end Session

namespace LoopingGuest

/-- A program that jumps to itself. -/
def program : Program := .make ((Memory.empty {}).storeWord 0x1000 0x6f) minMemory {} ⟨"", [], 0⟩

/-- The options under which the program is run. -/
def options : ExecutionOptions := { segmentLimit := 2, maxCycles := 5 }

/-- The limits that the options set. -/
def limits : RunLimits := ⟨2, 5, 1024, by decide⟩

theorem limits_options : options.limits program.params 0 = .ok limits := rfl

theorem goesOn_live : (program.live []).GoesOn 5 := by
  unfold Live.GoesOn
  decide +kernel

end LoopingGuest

open LoopingGuest in
/-- A program that jumps to itself uses up its cycles. -/
theorem Session.exists_withinBudget_looping :
    ∃ e, program.execute [] options = .ok (.ofRun e) ∧
      (ofRun e).info.exitCode = .fault .sessionLimitExceeded ∧ (ofRun e).info.totalCycles = 5 ∧
      (ofRun e).segments.length ≤ 6 := by
  obtain ⟨e, -, hexecute, hbudget⟩ :=
    (Session.exists_withinBudget options [] limits).1 program limits_options
  have htotal : (ofRun e).info.totalCycles = 5 := hbudget.used_up goesOn_live
  have hlen := hbudget.length_le
  rw [htotal] at hlen
  exact ⟨e, hexecute, hbudget.exit_iff.mpr goesOn_live, htotal, hlen⟩

end ReplayVM
