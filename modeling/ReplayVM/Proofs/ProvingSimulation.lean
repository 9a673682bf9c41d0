import ReplayVM.Proofs.MemorySimulation
import ReplayVM.Proofs.WitnessSpace
import ReplayVM.Receipt.Prove

/-!
# Proving over memories that look alike

A segment is proven by executing it again behind a recorder, which notes words and their paths. If a
relation between memories simulates, recorders over related memories note the same. So segments that
differ in nothing but related snapshots have the same rows and the same receipt. What is left to
tell them apart is the space that their snapshots take, which counts against a budget.

## Main definitions

* `Recorder.Related`, `Playback.Related`: what is equal but for related memories.

## Main results

* `Playback.rows_related`: machines that are executed again give the same rows.
* `Segment.witness_eq_of_related`: segments over related snapshots have the same witness.
* `Segment.prove_eq_of_related`: and the same receipt, if the budget does not tell them apart.
-/

namespace ReplayVM

variable {params : Params} {R : Memory → Memory → Prop}

/-! ### Recorders -/

/-- Recorders that differ in nothing but related memories. -/
structure Recorder.Related (R : Memory → Memory → Prop) (r r' : Recorder) : Prop where
  memory : R r.memory r'.memory
  replies_eq : r.replies = r'.replies
  fetch_eq : r.fetch = r'.fetch
  data_eq : r.data = r'.data
  host_eq : r.host = r'.host
  exhausted_eq : r.exhausted = r'.exhausted

namespace Recorder

variable {r r' : Recorder}

theorem fetchWord_related (h : Memory.Simulation params R) (hr : r.Related R r') {pc : UInt32}
    (hpc : params.Reaches pc) :
    (r.fetchWord pc).1 = (r'.fetchWord pc).1 ∧
      (r.fetchWord pc).2.Related R (r'.fetchWord pc).2 := by
  have hword := h.loadWord_eq hr.memory hpc
  have hpath := h.path_eq hr.memory hpc
  refine ⟨hword, { hr with fetch_eq := ?_ }⟩
  simp only [fetchWord, hword, hpath]

theorem loadWord_related (h : Memory.Simulation params R) (hr : r.Related R r') {addr : UInt32}
    (haddr : params.Reaches addr) :
    (r.loadWord addr).1 = (r'.loadWord addr).1 ∧
      (r.loadWord addr).2.Related R (r'.loadWord addr).2 := by
  have hword := h.loadWord_eq hr.memory haddr
  have hpath := h.path_eq hr.memory haddr
  simp only [loadWord, ← hr.data_eq, hword, hpath]
  cases r.data with
  | none => exact ⟨rfl, { hr with data_eq := rfl }⟩
  | some d => exact ⟨rfl, hr⟩

theorem storeWord_related (h : Memory.Simulation params R) (hr : r.Related R r') {addr : UInt32}
    (haddr : params.Reaches addr) (value : UInt32) :
    (r.storeWord addr value).Related R (r'.storeWord addr value) :=
  { hr with
    memory := h.storeWord value hr.memory haddr
    data_eq := by simp only [storeWord, hr.data_eq] }

theorem reply_related (hr : r.Related R r') :
    r.reply.1 = r'.reply.1 ∧ r.reply.2.Related R r'.reply.2 := by
  simp only [reply, ← hr.replies_eq]
  cases r.replies with
  | nil => exact ⟨rfl, hr.memory, rfl, hr.fetch_eq, hr.data_eq, hr.host_eq, rfl⟩
  | cons a replies =>
    exact ⟨rfl, hr.memory, rfl, hr.fetch_eq, hr.data_eq, rfl, hr.exhausted_eq⟩

theorem simulation (h : Memory.Simulation params R) :
    Bus.Simulation params bus bus (Related R) where
  fetch hr hpc := fetchWord_related h hr hpc
  load hr haddr := loadWord_related h hr haddr
  store hr haddr := storeWord_related h hr haddr _
  call _ hr := reply_related hr

end Recorder

/-! ### Rows -/

/-- Machines that are executed again and differ in nothing but related memories. -/
structure Playback.Related (R : Memory → Memory → Prop) (p q : Playback) : Prop where
  machine_eq : p.machine = q.machine
  memory : R p.memory q.memory
  replies_eq : p.replies = q.replies

namespace Playback

variable {p q : Playback}

theorem Related.state_eq (h : Memory.Simulation params R) (hpq : p.Related R q) :
    p.state = q.state := by
  rw [state, state, hpq.machine_eq, h.root_eq hpq.memory]

theorem Related.step (h : Memory.Simulation params R) (hpq : p.Related R q) :
    (p.step params).Related (Recorder.Related R) (q.step params) := by
  unfold Playback.step
  rw [hpq.machine_eq]
  exact Machine.step_related (Recorder.simulation h)
    ⟨hpq.memory, hpq.replies_eq, rfl, rfl, rfl, rfl⟩

/-- Related machines give the same row, or refuse it alike. -/
theorem advance_related (h : Memory.Simulation params R) (hpq : p.Related R q) (index : Nat) :
    AgreesUpTo (fun x y => x.1 = y.1 ∧ x.2.1 = y.2.1 ∧ x.2.2.Related R y.2.2)
      (p.advance params index) (q.advance params index) := by
  have hstep := hpq.step h
  simp only [advance, row, hpq.state_eq h, hstep.result_eq, hstep.bus.exhausted_eq]
  split
  · exact .error _
  · split
    · exact .error _
    · refine .ok ⟨rfl, ?_, hstep.machine_eq, hstep.bus.memory, hstep.bus.replies_eq⟩
      simp only [hstep.bus.fetch_eq, hstep.bus.data_eq, hstep.bus.host_eq]

/-- Related machines give the same rows. -/
theorem rows_related (h : Memory.Simulation params R) (exit : ExitCode) (count index : Nat)
    (hpq : p.Related R q) :
    AgreesUpTo (fun x y => x.1 = y.1 ∧ x.2.Related R y.2) (p.rows params exit count index)
      (q.rows params exit count index) := by
  induction count generalizing index p q with
  | zero => exact .ok ⟨rfl, hpq⟩
  | succ count ih =>
    refine (advance_related h hpq index).bind fun x y hxy => ?_
    obtain ⟨outcome, row, p'⟩ := x
    obtain ⟨outcome', row', q'⟩ := y
    obtain ⟨rfl, rfl, hnext⟩ := hxy
    refine .bind_left _ fun _ => (ih (index + 1) hnext).bind fun x y hrest => ?_
    exact .ok ⟨congrArg (row :: ·) hrest.1, hrest.2⟩

/-- Related machines have the same last row. -/
theorem finalRow_eq (h : Memory.Simulation params R) (exit : ExitCode) (hpq : p.Related R q) :
    p.finalRow params exit = q.finalRow params exit := by
  have hstep := hpq.step h
  simp only [finalRow, hpq.state_eq h, hstep.result_eq, hstep.bus.fetch_eq, hstep.bus.data_eq]

end Playback

/-! ### Segments -/

namespace Segment

variable {s t : Segment}

theorem Related.startState_eq (h : Memory.Simulation params R) (hst : s.Related R t) :
    s.trace.startState = t.trace.startState := by
  rw [Trace.startState, Trace.startState, Trace.startMachine, Trace.startMachine,
    hst.trace.startCpu_eq, hst.trace.startOutput_eq, h.root_eq hst.trace.startMemory]

/-- Segments over related snapshots have the same witness. -/
theorem witness_eq_of_related (h : Memory.Simulation s.params R) (hst : s.Related R t) :
    s.witness = t.witness := by
  have hplayback : s.playback.Related R t.playback :=
    ⟨by simp only [playback, Trace.startMachine, hst.trace.startCpu_eq, hst.trace.startOutput_eq],
      hst.trace.startMemory, hst.trace.hostReplies_eq⟩
  have hrows := Playback.rows_related h t.exitCode t.instructionCount.toNat 0 hplayback
  refine AgreesUpTo.eq ?_
  unfold witness
  rw [← hst.params_eq, hst.instructionCount_eq, hst.exitCode_eq, hst.endCommitment_eq,
    hst.outputDigest_eq]
  dsimp only
  split
  · exact .of_eq rfl
  refine hrows.bind fun x y hxy => ?_
  obtain ⟨rows, p⟩ := x
  obtain ⟨rows', q⟩ := y
  obtain ⟨rfl, hpq⟩ := hxy
  dsimp only
  rw [hpq.replies_eq, Playback.finalRow_eq h t.exitCode hpq]
  exact .of_eq rfl

/-- Segments over related snapshots are proven alike, if their witnesses are estimated alike or fit
the budget. -/
theorem prove_eq_of_related (h : Memory.Simulation s.params R) (hst : s.Related R t) {budget : Nat}
    (hspace : s.params.validate = .ok () → s.witnessEstimate = t.witnessEstimate ∨
      s.WitnessWithin budget ∧ t.WitnessWithin budget)
    (cancelled : Checkpoint → Bool) : s.prove budget cancelled = t.prove budget cancelled := by
  have hclaim : s.claim = t.claim := by
    simp only [claim, hst.index_eq, hst.startCommitment_eq, hst.endCommitment_eq,
      hst.instructionCount_eq, hst.exitCode_eq, hst.outputDigest_eq, hst.configDigest_eq]
  have hstatement : s.checkStatement = t.checkStatement := by
    simp only [checkStatement, hst.params_eq, hst.configDigest_eq, hst.instructionCount_eq,
      hst.startState_eq h, hst.startCommitment_eq]
  have hadmission : s.checkAdmission budget = t.checkAdmission budget := by
    unfold checkAdmission
    rw [← hst.params_eq, ← hst.index_eq, ← hstatement]
    cases hvalid : s.params.validate with
    | error cause => simp only [Except.mapError, bind, Except.bind]
    | ok _ =>
      rcases hspace hvalid with heq | ⟨⟨a, ha, hle⟩, b, hb, hle'⟩
      · rw [heq]
      · simp only [ha, hb, Stop.fit, if_neg (Nat.not_lt_of_le hle), if_neg (Nat.not_lt_of_le hle'),
          bind, Except.bind]
  have hseal : s.sealOf = t.sealOf := by
    funext rows
    rw [sealOf, sealOf, hst.params_eq]
  simp only [prove, hadmission, witness_eq_of_related h hst, hst.index_eq, hclaim, hseal]

end Segment

end ReplayVM
