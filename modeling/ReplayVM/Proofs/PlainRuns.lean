import ReplayVM.Proofs.Runs
import ReplayVM.Proofs.Segmentation

/-!
# Segments of a plain run

The segments of a run are cut out of one plain run: each of them starts where the plain run stands
behind the instructions of the segments before it, up to the answers of the host, which a segment
records anew. What a segment does can therefore be said by positions in the plain run.

## Main definitions

* `Live.after`: a running machine after a number of instructions.
* `Live.outcomeAt`, `Live.lastOutcome`: the outcomes of instructions.
* `Live.GoesOn`: a number of instructions behind which the run goes on.
* `Segment.totalCount`: the number of instructions of some segments.

## Main results

* `Live.Stretch.after_eq`: a segment ends behind its instructions.
* `Live.Runs.exists_start`: the segments of a run start in the plain run.
* `Live.exit_unsegmented_iff`: a plain run uses up its cycles if it goes on for as long.
-/

namespace ReplayVM

/-- The number of instructions of some segments. -/
def Segment.totalCount (segments : List Segment) : Nat :=
  (segments.map fun x => x.instructionCount.toNat).sum

/-! ### Limits of accepted options -/

section

variable {o : ExecutionOptions} {params : Params} {size : Nat} {limits : RunLimits}

theorem ExecutionOptions.segmentLimit_of_limits (h : o.limits params size = .ok limits) :
    limits.segmentLimit = o.segmentLimit.toNat := by
  unfold ExecutionOptions.limits at h
  split_ifs at h
  rw [← Except.ok.inj h]

/-- A segment may touch the pages of at least one instruction. -/
theorem ExecutionOptions.maxSegmentPages_of_limits (h : o.limits params size = .ok limits) :
    limits.maxSegmentPages = o.maxSegmentPages.toNat ∧ 2 ≤ limits.maxSegmentPages := by
  unfold ExecutionOptions.limits at h
  split_ifs at h with _ _ hpages
  rw [← Except.ok.inj h]
  exact ⟨rfl, UInt32.le_iff_toNat_le.mp (UInt32.not_lt.mp hpages)⟩

end

/-! ### Faults of instructions -/

theorem checkAccess_ne_sessionLimitExceeded (params : Params) (addr width : UInt32) :
    checkAccess params addr width ≠ .error .sessionLimitExceeded := by
  unfold checkAccess
  split_ifs <;> simp

theorem Machine.callEffect_ne_sessionLimitExceeded (m : Machine) :
    m.callEffect ≠ .error .sessionLimitExceeded := by
  simp only [callEffect]
  split
  case h_5 => split_ifs <;> simp
  all_goals simp

theorem Instruction.effect_ne_sessionLimitExceeded (params : Params) (m : Machine)
    (inst : Instruction) : inst.effect params m ≠ .error .sessionLimitExceeded := by
  cases inst with
  | upper op => cases op <;> simp [effect]
  | branch => simp only [effect]; split_ifs <;> simp
  | load kind | store kind =>
    simp only [effect, bind, Except.bind]
    split
    · rename_i hreason
      rintro ⟨⟩
      exact checkAccess_ne_sessionLimitExceeded _ _ _ hreason
    · simp [pure, Except.pure]
  | ecall => exact m.callEffect_ne_sessionLimitExceeded
  | jal | jalr | immediate | register | fence | ebreak => simp [effect]

/-- No step faults for want of cycles. -/
theorem Machine.step_ne_sessionLimitExceeded {σ : Type} (bus : Bus σ) (params : Params)
    (m : Machine) (s : σ) : (m.step bus params s).result ≠ .error .sessionLimitExceeded := by
  cases hf : canFetch params m.cpu.pc with
  | false =>
    rw [step_of_not_canFetch hf]
    simp
  | true =>
    cases hp : m.plan params (bus.fetch s m.cpu.pc).1 with
    | error reason =>
      rw [step_of_plan_error hf hp]
      rintro ⟨⟩
      unfold plan at hp
      split at hp
      · simp at hp
      · exact Instruction.effect_ne_sessionLimitExceeded _ _ _ hp
    | ok effect =>
      obtain ⟨outcome, ho⟩ := effect.run_result bus (bus.fetch s m.cpu.pc).2
      rw [step_of_plan_ok hf hp, ho]
      simp

namespace Live

variable {s t : Live}

theorem step_ne_sessionLimitExceeded (s : Live) : s.step.1 ≠ .error .sessionLimitExceeded := by
  intro h
  have hs : s.step = (.error .sessionLimitExceeded, s.step.2) := Prod.ext h rfl
  exact Machine.step_ne_sessionLimitExceeded _ _ _ _ (step_of_error hs).1

/-! ### Positions in a plain run -/

/-- A running machine after a number of instructions, which passes over boundaries and halts, and
stays where it is at a fault. -/
def after (s : Live) : Nat → Live
  | 0 => s
  | n + 1 => s.step.2.after n

/-- The outcome of the instruction behind a number of others, if it does not fault. -/
def outcomeAt (s : Live) (n : Nat) : Option StepOutcome := (s.after n).step.1.toOption

/-- The outcome of the last of a number of instructions, if there is one. -/
def lastOutcome (s : Live) : Nat → Option StepOutcome
  | 0 => none
  | n + 1 => s.outcomeAt n

/-- A number of instructions behind each of which the run goes on: none of them halts, pauses or
faults. -/
def GoesOn (s : Live) (n : Nat) : Prop :=
  ∀ j < n, s.outcomeAt j = some .next ∨ s.outcomeAt j = some .yielded

theorem outcomeAt_zero {outcome : StepOutcome} (h : s.step = (.ok outcome, t)) :
    s.outcomeAt 0 = some outcome := by
  rw [outcomeAt, after, h]
  rfl

theorem after_succ {outcome : StepOutcome} (h : s.step = (.ok outcome, t)) (n : Nat) :
    s.after (n + 1) = t.after n := by
  rw [after, h]

theorem outcomeAt_succ {outcome : StepOutcome} (h : s.step = (.ok outcome, t)) (n : Nat) :
    s.outcomeAt (n + 1) = t.outcomeAt n := by
  rw [outcomeAt, after_succ h, outcomeAt]

theorem after_add (s : Live) (m n : Nat) : s.after (m + n) = (s.after m).after n := by
  induction m generalizing s with
  | zero => rw [Nat.zero_add, after]
  | succ m ih => rw [Nat.succ_add, after, after, ih]

/-- A run goes on for some instructions if it goes on behind the first and then for the others. -/
theorem goesOn_succ {outcome : StepOutcome} (h : s.step = (.ok outcome, t)) (n : Nat) :
    s.GoesOn (n + 1) ↔ (outcome = .next ∨ outcome = .yielded) ∧ t.GoesOn n := by
  constructor
  · intro hs
    have hfirst := hs 0 (Nat.succ_pos n)
    rw [outcomeAt_zero h, Option.some.injEq, Option.some.injEq] at hfirst
    refine ⟨hfirst, fun j hj => ?_⟩
    have hnext := hs (j + 1) (Nat.succ_lt_succ hj)
    rwa [outcomeAt_succ h] at hnext
  · rintro ⟨hfirst, ht⟩ j hj
    cases j with
    | zero => rwa [outcomeAt_zero h, Option.some.injEq, Option.some.injEq]
    | succ j =>
      rw [outcomeAt_succ h]
      exact ht j (Nat.lt_of_succ_lt_succ hj)

/-- A run does not go on behind a fault. -/
theorem not_goesOn_of_error {reason : FaultReason} (h : s.step = (.error reason, t)) (n : Nat) :
    ¬s.GoesOn (n + 1) := by
  intro hs
  have hfirst := hs 0 (Nat.succ_pos n)
  rw [outcomeAt, after, h] at hfirst
  simp [Except.toOption] at hfirst

/-! ### Remembered answers -/

theorem remembering_nil (s : Live) : s.remembering [] = s := by
  simp [remembering, World.remembering]

theorem after_remembering (before : List HostReply) (s : Live) (n : Nat) :
    (s.remembering before).after n = (s.after n).remembering before := by
  induction n generalizing s with
  | zero => rfl
  | succ n ih => rw [after, after, step_remembering, ih]

theorem outcomeAt_remembering (before : List HostReply) (s : Live) (n : Nat) :
    (s.remembering before).outcomeAt n = s.outcomeAt n := by
  rw [outcomeAt, outcomeAt, after_remembering, step_remembering]

theorem lastOutcome_remembering (before : List HostReply) (s : Live) (n : Nat) :
    (s.remembering before).lastOutcome n = s.lastOutcome n := by
  cases n with
  | zero => rfl
  | succ n => exact outcomeAt_remembering before s n

/-! ### Segments -/

/-- A stretch ends behind its instructions. -/
theorem Stretch.after_eq {exit : ExitCode} {count : Nat} (h : s.Stretch exit count t) :
    t = s.after count := by
  induction h with
  | split s | limit s => rfl
  | fault h => exact (step_of_error h).2
  | last h _ _ => exact (after_succ h 0).symm
  | next h _ ih => rw [after_succ h, ih]

variable {limits : RunLimits} {index : UInt32} {e : RunEnd}

/-- A segment of a run starts, up to the answers of the host, where the plain run stands behind the
instructions of the segments before it. -/
theorem Runs.exists_start (h : Runs limits index s e) (hlimit : limits.segmentLimit < UInt32.size)
    {i : Nat} {segment : Segment} (hi : e.segments[i]? = some segment) :
    ∃ (index' : UInt32) (t : Live) (before : List HostReply),
      segment = t.segment index' (t.segmentEnd limits) ∧
      s.fresh.after (Segment.totalCount (e.segments.take i)) = t.fresh.remembering before := by
  induction h generalizing i with
  | @last index s h =>
    obtain ⟨rfl, rfl⟩ : i = 0 ∧ s.segment index (s.segmentEnd limits) = segment := by
      cases i <;> simp_all
    exact ⟨index, s, [], rfl, (remembering_nil _).symm⟩
  | @split index s e h rest ih =>
    cases i with
    | zero =>
      obtain rfl : s.segment index (s.segmentEnd limits) = segment := by simpa using hi
      exact ⟨index, s, [], rfl, (remembering_nil _).symm⟩
    | succ i =>
      obtain ⟨index', t, before, hsegment, hstart⟩ := ih (by simpa using hi)
      refine ⟨index', t, (s.segmentEnd limits).live.world.replies.toList ++ before, hsegment, ?_⟩
      have hend := (stretch_segmentEnd limits s).2.after_eq
      rw [List.take_succ_cons, Segment.totalCount, List.map_cons, List.sum_cons,
        instructionCount_segment hlimit, after_add, ← hend, ← remembering_remembering, ← hstart,
        ← after_remembering, remembering_fresh]
      rfl

/-! ### Cycles -/

variable {maxCycles : Nat}

/-- With cycles left, a run goes on for all of them if the first instruction goes on and the run
does behind it. -/
theorem goesOn_cycles_of_ok {outcome : StepOutcome} (h : ¬maxCycles ≤ s.cycles)
    (hs : s.step = (.ok outcome, t)) : s.GoesOn (maxCycles - s.cycles) ↔
      (outcome = .next ∨ outcome = .yielded) ∧ t.GoesOn (maxCycles - t.cycles) := by
  have hleft : maxCycles - s.cycles = maxCycles - (s.cycles + 1) + 1 := by omega
  rw [hleft, goesOn_succ hs, cycles_step_of_ok hs]

theorem not_goesOn_cycles_of_error {reason : FaultReason} (h : ¬maxCycles ≤ s.cycles)
    (hs : s.step = (.error reason, t)) : ¬s.GoesOn (maxCycles - s.cycles) := by
  have hleft : maxCycles - s.cycles = maxCycles - (s.cycles + 1) + 1 := by omega
  exact hleft ▸ not_goesOn_of_error hs _

/-- A plain run ends for want of cycles if it goes on for as long as it has cycles left. -/
theorem exit_unsegmented_iff (maxCycles : Nat) (s : Live) :
    (s.unsegmented maxCycles).1 = .fault .sessionLimitExceeded ↔
      s.GoesOn (maxCycles - s.cycles) := by
  fun_induction unsegmented maxCycles s with
  | case1 s h =>
    rw [Nat.sub_eq_zero_of_le h]
    exact ⟨fun _ j hj => absurd hj (Nat.not_lt_zero j), fun _ => rfl⟩
  | case2 s h reason t hs =>
    refine iff_of_false (fun hreason => ?_) (not_goesOn_cycles_of_error h hs)
    obtain rfl := ExitCode.fault.inj hreason
    exact s.step_ne_sessionLimitExceeded (congrArg Prod.fst hs)
  | case3 s h t hs ih | case4 s h t hs ih => simpa [goesOn_cycles_of_ok h hs] using ih
  | case5 s h t code hs | case6 s h t code hs => simp [goesOn_cycles_of_ok h hs]

/-- A plain run that goes on for as long as it has cycles left uses them up. -/
theorem cycles_unsegmented (hle : s.cycles ≤ maxCycles) (h : s.GoesOn (maxCycles - s.cycles)) :
    (s.unsegmented maxCycles).2.cycles = maxCycles := by
  fun_induction unsegmented maxCycles s with
  | case1 s hcycles => exact Nat.le_antisymm hle hcycles
  | case2 s hcycles reason t hs => exact absurd h (not_goesOn_cycles_of_error hcycles hs)
  | case3 s hcycles t hs ih | case4 s hcycles t hs ih =>
    have hnext := cycles_step_of_ok hs
    exact ih (by omega) ((goesOn_cycles_of_ok hcycles hs).mp h).2
  | case5 s hcycles t code hs | case6 s hcycles t code hs =>
    simp [goesOn_cycles_of_ok hcycles hs] at h

end Live

end ReplayVM
