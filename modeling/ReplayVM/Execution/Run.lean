import ReplayVM.Execution.Live
import ReplayVM.Execution.Options
import ReplayVM.Execution.Segment

/-!
# Runs

A run is cut into segments. A segment ends where the machine halts, pauses or faults, where the
guest asks for a boundary, where the run has used up its cycles, and otherwise before the first
instruction for which the segment has no room: it may have a limited number of instructions and
touch a limited number of pages. A segment that is split off executed at least one instruction, so a
run ends.

## Main definitions

* `SegmentEnd`, `Live.runSegment`: one segment, from a running machine to a running machine.
* `Live.segment`: the segment with its commitments.
* `Live.run`: all segments up to the end of a run.

## Main results

* `Live.cycles_lt_of_split`: a segment that is split off makes progress and keeps to the cycles.
-/

namespace ReplayVM

/-- Where a segment ends: why, after how many instructions, and with which machine. -/
structure SegmentEnd where
  exit : ExitCode
  count : Nat
  live : Live

namespace Live

/-- Executes a segment that has room for a number of further instructions, has touched some pages
and has executed a number of instructions. -/
def runSegment (limits : RunLimits) :
    (room : Nat) → (pages : List UInt32) → (count : Nat) → Live → SegmentEnd
  | 0, _, count, s => ⟨.systemSplit, count, s⟩
  | room + 1, pages, count, s =>
    if limits.maxCycles ≤ s.cycles then ⟨.fault .sessionLimitExceeded, count, s⟩
    else
      let fresh := s.nextPages.filter fun page => page ∉ pages
      if 0 < count ∧ limits.maxSegmentPages < pages.length + fresh.length then
        ⟨.systemSplit, count, s⟩
      else
        match s.step with
        | (.error reason, s) => ⟨.fault reason, count, s⟩
        | (.ok .next, s) => runSegment limits room (fresh ++ pages) (count + 1) s
        | (.ok (.halted code), s) => ⟨.halted code, count + 1, s⟩
        | (.ok (.paused code), s) => ⟨.paused code, count + 1, s⟩
        | (.ok .yielded, s) => ⟨.systemSplit, count + 1, s⟩

/-- The machine at the start of a segment: no answers of the host recorded. -/
def fresh (s : Live) : Live := { s with world := { s.world with replies := #[] } }

/-- The end of the segment that starts with a running machine. -/
def segmentEnd (limits : RunLimits) (s : Live) : SegmentEnd :=
  s.fresh.runSegment limits limits.segmentLimit [] 0

/-- The segment from a running machine to an end. -/
def segment (start : Live) (index : UInt32) (e : SegmentEnd) : Segment where
  index := index
  startCommitment := start.state.commitment
  endCommitment := e.live.state.commitment
  instructionCount := e.count.toUInt32
  exitCode := e.exit
  outputDigest := e.live.machine.output.digest
  params := start.params
  configDigest := start.params.configDigest
  trace := {
    startCpu := start.machine.cpu
    startMemory := start.world.memory
    startOutput := start.machine.output
    hostReplies := e.live.world.replies.toList }

/-! ### Progress -/

theorem cycles_step_of_ok {s t : Live} {outcome : StepOutcome} (h : s.step = (.ok outcome, t)) :
    t.cycles = s.cycles + 1 := by
  simp only [step] at h
  split at h
  · simp at h
  · simp only [Prod.mk.injEq, Except.ok.injEq] at h
    exact h.2 ▸ rfl

theorem cycles_step_of_error {s t : Live} {reason : FaultReason}
    (h : s.step = (.error reason, t)) : t.cycles = s.cycles := by
  simp only [step] at h
  split at h
  · simp only [Prod.mk.injEq] at h
    exact h.2 ▸ rfl
  · simp at h

theorem cycles_le_runSegment (limits : RunLimits) (room : Nat) (pages : List UInt32) (count : Nat)
    (s : Live) : s.cycles ≤ (s.runSegment limits room pages count).live.cycles := by
  fun_induction runSegment limits room pages count s with
  | case1 => exact Nat.le_refl _
  | case2 => exact Nat.le_refl _
  | case3 => exact Nat.le_refl _
  | case4 room pages count s _ fresh _ reason t h =>
    exact Nat.le_of_eq (cycles_step_of_error h).symm
  | case5 room pages count s _ fresh _ t h ih =>
    exact Nat.le_trans (by rw [cycles_step_of_ok h]; exact Nat.le_succ _) ih
  | case6 room pages count s _ fresh _ code t h =>
    exact Nat.le_of_lt (by rw [cycles_step_of_ok h]; exact Nat.lt_succ_self _)
  | case7 room pages count s _ fresh _ code t h =>
    exact Nat.le_of_lt (by rw [cycles_step_of_ok h]; exact Nat.lt_succ_self _)
  | case8 room pages count s _ fresh _ t h =>
    exact Nat.le_of_lt (by rw [cycles_step_of_ok h]; exact Nat.lt_succ_self _)

/-- A segment that is split off executed an instruction, and its start was within the cycles of the
run. -/
theorem cycles_lt_of_split {limits : RunLimits} {s : Live}
    (h : (s.segmentEnd limits).exit = .systemSplit) :
    s.cycles < limits.maxCycles ∧ s.cycles < (s.segmentEnd limits).live.cycles := by
  unfold segmentEnd at h ⊢
  have hc : s.fresh.cycles = s.cycles := rfl
  rw [← hc]
  generalize s.fresh = s at h ⊢
  obtain ⟨room, hroom⟩ := Nat.exists_eq_succ_of_ne_zero (Nat.ne_of_gt limits.segmentLimit_pos)
  rw [hroom, runSegment] at h ⊢
  split at h
  · simp at h
  · rename_i hlt
    refine ⟨Nat.lt_of_not_le hlt, ?_⟩
    rw [if_neg hlt]
    simp only [Nat.lt_irrefl, false_and, if_false] at h ⊢
    split at h
    · simp at h
    · rename_i t ht
      exact Nat.lt_of_lt_of_le (by rw [cycles_step_of_ok ht]; exact Nat.lt_succ_self _)
        (cycles_le_runSegment _ _ _ _ _)
    · simp at h
    · simp at h
    · rename_i t ht
      exact Nat.lt_of_lt_of_eq (Nat.lt_succ_self _) (cycles_step_of_ok ht).symm

/-! ### Whole runs -/

/-- Where a run ends: its segments in order, why it ends, and with which machine. -/
structure RunEnd where
  segments : List Segment
  exit : ExitCode
  live : Live
  /-- The index of the segment that would be next. -/
  nextIndex : UInt32

/-- Runs a machine to its end, behind the segments so far. -/
def runFrom (limits : RunLimits) (done : Array Segment) (index : UInt32) (s : Live) : RunEnd :=
  let e := s.segmentEnd limits
  let done := done.push (s.segment index e)
  if _h : e.exit = .systemSplit then runFrom limits done (index + 1) e.live
  else ⟨done.toList, e.exit, e.live, index + 1⟩
termination_by limits.maxCycles - s.cycles
decreasing_by
  have := cycles_lt_of_split _h
  omega

/-- Runs a machine to its end, with segments numbered from an index on. -/
def run (limits : RunLimits) (index : UInt32) (s : Live) : RunEnd := runFrom limits #[] index s

end Live

end ReplayVM
