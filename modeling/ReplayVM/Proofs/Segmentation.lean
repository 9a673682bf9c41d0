import Mathlib.Tactic.Common
import ReplayVM.Execution.Session
import ReplayVM.Proofs.Steps

/-!
# Segmentation

A run is cut into segments by limits on instructions and pages and by boundaries that the guest asks
for. The cuts do not show: a run ends as the plain run does, which executes one instruction after
another and passes over every boundary. The two runs differ only in the answers of the host that a
running machine remembers, because a segment starts to record anew.

## Main definitions

* `Live.unsegmented`: the plain run.
* `Live.remembering`: a running machine that remembers earlier answers of the host.
* `Session.Reaches`, `Session.Agrees`: a session that ends where a plain run does, and sessions that
  cannot be told apart but by their segments.

## Main results

* `Live.step_remembering`: what is remembered does not matter to a step.
* `Live.unsegmented_runSegment`: a plain run passes through the ends of segments.
* `Live.reaches_run`: the session of a run reaches the end of the plain run.
-/

namespace ReplayVM

/-! ### Steps and remembered answers -/

/-- The world with earlier answers of the host in front of those so far. -/
def World.remembering (before : List HostReply) (w : World) : World :=
  { w with replies := before.toArray ++ w.replies }

/-- What is remembered does not matter to a step. -/
theorem Machine.step_remembering (params : Params) (m : Machine) (before : List HostReply)
    (w : World) :
    m.step World.bus params (w.remembering before) =
      let r := m.step World.bus params w
      ⟨r.result, r.machine, r.bus.remembering before⟩ := by
  cases hf : canFetch params m.cpu.pc with
  | false => simp only [step_of_not_canFetch hf]
  | true =>
    have hfetch : (World.bus.fetch (w.remembering before) m.cpu.pc).1 =
        (World.bus.fetch w m.cpu.pc).1 := rfl
    cases hp : m.plan params (World.bus.fetch w m.cpu.pc).1 with
    | error reason =>
      rw [step_of_plan_error hf hp, step_of_plan_error hf (hfetch ▸ hp)]
      rfl
    | ok effect =>
      rw [step_of_plan_ok hf hp, step_of_plan_ok hf (hfetch ▸ hp)]
      cases effect with
      | finish outcome next => rfl
      | load addr next => rfl
      | store addr merge next => rfl
      | call request next => simp [Effect.run, World.bus, World.remembering]

namespace Live

/-- A running machine that remembers earlier answers of the host. -/
def remembering (before : List HostReply) (s : Live) : Live :=
  { s with world := s.world.remembering before }

theorem step_remembering (before : List HostReply) (s : Live) :
    (s.remembering before).step = (s.step.1, s.step.2.remembering before) := by
  have h := Machine.step_remembering s.params s.machine before s.world
  simp only [step, remembering, h]
  cases (s.machine.step World.bus s.params s.world).result <;> rfl

theorem remembering_remembering (a b : List HostReply) (s : Live) :
    (s.remembering b).remembering a = s.remembering (a ++ b) := by
  simp [remembering, World.remembering, ← Array.append_assoc]

theorem remembering_fresh (s : Live) : s.fresh.remembering s.world.replies.toList = s := by
  simp [remembering, World.remembering, fresh]

/-! ### The plain run -/

/-- The plain run: one instruction after the other, until the machine halts, pauses or faults or has
executed a number of instructions. -/
def unsegmented (maxCycles : Nat) (s : Live) : ExitCode × Live :=
  if maxCycles ≤ s.cycles then (.fault .sessionLimitExceeded, s)
  else
    match _h : s.step with
    | (.error reason, t) => (.fault reason, t)
    | (.ok .next, t) => unsegmented maxCycles t
    | (.ok .yielded, t) => unsegmented maxCycles t
    | (.ok (.halted code), t) => (.halted code, t)
    | (.ok (.paused code), t) => (.paused code, t)
termination_by maxCycles - s.cycles
decreasing_by
  all_goals
    have := cycles_step_of_ok _h
    omega

section

variable {maxCycles : Nat} {s t : Live}

theorem unsegmented_of_le (h : maxCycles ≤ s.cycles) :
    s.unsegmented maxCycles = (.fault .sessionLimitExceeded, s) := by
  rw [unsegmented, if_pos h]

theorem unsegmented_of_error {reason : FaultReason} (h : ¬maxCycles ≤ s.cycles)
    (hs : s.step = (.error reason, t)) : s.unsegmented maxCycles = (.fault reason, t) := by
  rw [unsegmented, if_neg h]
  split <;> simp_all

theorem unsegmented_of_next {outcome : StepOutcome} (h : ¬maxCycles ≤ s.cycles)
    (hs : s.step = (.ok outcome, t)) (ho : outcome = .next ∨ outcome = .yielded) :
    s.unsegmented maxCycles = t.unsegmented maxCycles := by
  rcases ho with rfl | rfl
  · rw [unsegmented, if_neg h]
    split <;> simp_all
  · rw [unsegmented, if_neg h]
    split <;> simp_all

theorem unsegmented_of_halted {code : UInt32} (h : ¬maxCycles ≤ s.cycles)
    (hs : s.step = (.ok (.halted code), t)) : s.unsegmented maxCycles = (.halted code, t) := by
  rw [unsegmented, if_neg h]
  split <;> simp_all

theorem unsegmented_of_paused {code : UInt32} (h : ¬maxCycles ≤ s.cycles)
    (hs : s.step = (.ok (.paused code), t)) : s.unsegmented maxCycles = (.paused code, t) := by
  rw [unsegmented, if_neg h]
  split <;> simp_all

end

/-- A plain run passes through the end of a segment that was split off, and ends where any other
segment ends. -/
theorem unsegmented_runSegment (limits : RunLimits) (before : List HostReply) (room : Nat)
    (pages : List UInt32) (count : Nat) (s : Live) :
    (s.remembering before).unsegmented limits.maxCycles =
      let e := s.runSegment limits room pages count
      if e.exit = .systemSplit then (e.live.remembering before).unsegmented limits.maxCycles
      else (e.exit, e.live.remembering before) := by
  have hstep {s t : Live} {result : Except FaultReason StepOutcome} (h : s.step = (result, t)) :
      (s.remembering before).step = (result, t.remembering before) := by
    rw [step_remembering, h]
  fun_induction runSegment limits room pages count s with
  | case1 => rfl
  | case2 room pages count s h => exact unsegmented_of_le h
  | case3 => rfl
  | case4 room pages count s h fresh _ reason t hs => exact unsegmented_of_error h (hstep hs)
  | case5 room pages count s h fresh _ t hs ih =>
    exact (unsegmented_of_next (s := s.remembering before) h (hstep hs) (.inl rfl)).trans ih
  | case6 room pages count s h fresh _ code t hs => exact unsegmented_of_halted h (hstep hs)
  | case7 room pages count s h fresh _ code t hs => exact unsegmented_of_paused h (hstep hs)
  | case8 room pages count s h fresh _ t hs =>
    exact unsegmented_of_next h (hstep hs) (.inr rfl)

/-! ### Whole runs -/

theorem unsegmented_of_split {limits : RunLimits} {s : Live} {before : List HostReply}
    (h : (s.segmentEnd limits).exit = .systemSplit) :
    (s.fresh.remembering before).unsegmented limits.maxCycles =
      ((s.segmentEnd limits).live.remembering before).unsegmented limits.maxCycles :=
  (unsegmented_runSegment limits before limits.segmentLimit [] 0 s.fresh).trans (if_pos h)

theorem unsegmented_of_not_split {limits : RunLimits} {s : Live} (before : List HostReply)
    (h : (s.segmentEnd limits).exit ≠ .systemSplit) :
    (s.fresh.remembering before).unsegmented limits.maxCycles =
      ((s.segmentEnd limits).exit, (s.segmentEnd limits).live.remembering before) :=
  (unsegmented_runSegment limits before limits.segmentLimit [] 0 s.fresh).trans (if_neg h)

end Live

/-- The answers of the host in some segments. -/
def Segment.allReplies (segments : List Segment) : List HostReply :=
  segments.flatMap fun s => s.trace.hostReplies

namespace Live

/-- A run ends as the plain run does, with the answers of the host spread over the segments. -/
theorem unsegmented_runFrom (limits : RunLimits) (done : Array Segment) (index : UInt32) (s : Live)
    (before : List HostReply) :
    ∃ segments e, (s.runFrom limits done index).segments = done.toList ++ segments ++ [e] ∧
      e.endCommitment = (s.runFrom limits done index).live.state.commitment ∧
      e.trace.hostReplies = (s.runFrom limits done index).live.world.replies.toList ∧
      (s.fresh.remembering before).unsegmented limits.maxCycles =
        ((s.runFrom limits done index).exit, (s.runFrom limits done index).live.remembering
          (before ++ Segment.allReplies segments)) := by
  fun_induction runFrom limits done index s generalizing before with
  | case1 done index s e done' hsplit ih =>
    obtain ⟨segments, last, hsegments, hend, hreplies, hrun⟩ :=
      ih (before ++ e.live.world.replies.toList)
    rw [← remembering_remembering, remembering_fresh, ← unsegmented_of_split hsplit] at hrun
    refine ⟨s.segment index e :: segments, last, ?_, hend, hreplies, hrun.trans ?_⟩
    · rw [hsegments]
      simp [done']
    · simp [Segment.allReplies, segment]
  | case2 done index s e done' hsplit =>
    refine ⟨[], s.segment index e, by simp [done'], rfl, rfl, ?_⟩
    simpa [Segment.allReplies] using unsegmented_of_not_split before hsplit

end Live

/-! ### Sessions -/

/-- A continuation without its place in the numbering of segments. -/
def Continuation.unnumbered (c : Continuation) : Continuation := { c with nextSegmentIndex := 0 }

namespace Session

/-- The commitment to the state in which a session ends. -/
def endCommitment (x : Session) : Option Digest := x.segments.getLast?.map Segment.endCommitment

/-- A session that ends where a plain run does, with the same answers of the host. -/
structure Reaches (x : Session) (e : ExitCode × Live) : Prop where
  exitCode_eq : x.info.exitCode = e.1
  outputDigest_eq : x.info.outputDigest = e.2.machine.output.digest
  journal_eq : x.info.journal = e.2.journal.toList
  totalCycles_eq : x.info.totalCycles = e.2.cycles.toUInt64
  endCommitment_eq : x.endCommitment = some e.2.state.commitment
  replies_eq : Segment.allReplies x.segments = e.2.world.replies.toList
  continuation_eq : x.continuation.map Continuation.unnumbered = continuationOf ⟨[], e.1, e.2, 0⟩

/-- Sessions that cannot be told apart but by their segments and the numbering of segments. -/
structure Agrees (x y : Session) : Prop where
  exitCode_eq : x.info.exitCode = y.info.exitCode
  outputDigest_eq : x.info.outputDigest = y.info.outputDigest
  journal_eq : x.info.journal = y.info.journal
  totalCycles_eq : x.info.totalCycles = y.info.totalCycles
  endCommitment_eq : x.endCommitment = y.endCommitment
  replies_eq : Segment.allReplies x.segments = Segment.allReplies y.segments
  continuation_eq :
    x.continuation.map Continuation.unnumbered = y.continuation.map Continuation.unnumbered

theorem Reaches.agrees {x y : Session} {e : ExitCode × Live} (hx : x.Reaches e)
    (hy : y.Reaches e) : x.Agrees y where
  exitCode_eq := hx.exitCode_eq.trans hy.exitCode_eq.symm
  outputDigest_eq := hx.outputDigest_eq.trans hy.outputDigest_eq.symm
  journal_eq := hx.journal_eq.trans hy.journal_eq.symm
  totalCycles_eq := hx.totalCycles_eq.trans hy.totalCycles_eq.symm
  endCommitment_eq := hx.endCommitment_eq.trans hy.endCommitment_eq.symm
  replies_eq := hx.replies_eq.trans hy.replies_eq.symm
  continuation_eq := hx.continuation_eq.trans hy.continuation_eq.symm

/-- The session of a run reaches the end of the plain run. -/
theorem reaches_run (limits : RunLimits) (index : UInt32) {s : Live} (hs : s.world.replies = #[]) :
    (ofRun (s.run limits index)).Reaches (s.unsegmented limits.maxCycles) := by
  obtain ⟨segments, last, hsegments, hend, hreplies, hrun⟩ :=
    Live.unsegmented_runFrom limits #[] index s []
  have hstart : s.fresh.remembering [] = s := by
    have := s.remembering_fresh
    rwa [hs] at this
  rw [hstart] at hrun
  change _ = ((s.run limits index).exit, (s.run limits index).live.remembering _) at hrun
  change (s.run limits index).segments = _ at hsegments
  change _ = (s.run limits index).live.state.commitment at hend
  change _ = (s.run limits index).live.world.replies.toList at hreplies
  generalize s.run limits index = e at *
  rw [hrun]
  refine ⟨rfl, rfl, rfl, rfl, ?_, ?_, ?_⟩
  · simp [endCommitment, ofRun, hsegments, hend, Live.state, Live.remembering, World.remembering]
  · simp [ofRun, hsegments, Segment.allReplies, hreplies, Live.remembering, World.remembering]
  · simp only [ofRun, continuationOf]
    cases e.exit <;> rfl

/-- The limits of accepted options end a run after as many instructions as the options say. -/
theorem maxCycles_of_limits {o : ExecutionOptions} {params : Params} {size : Nat}
    {limits : RunLimits} (h : o.limits params size = .ok limits) :
    limits.maxCycles = o.maxCycles.toNat := by
  unfold ExecutionOptions.limits at h
  split_ifs at h
  rw [← Except.ok.inj h]

/-- Segmentation does not show. Two sessions of one program on one input, or of one paused machine
on one input, under options with the same number of cycles end where the plain run ends. -/
theorem segmentation_transparent {a b : ExecutionOptions} (hcycles : a.maxCycles = b.maxCycles) :
    (∀ (p : Program) (input : Bytes) (la lb : RunLimits),
      a.limits p.params input.length = .ok la → b.limits p.params input.length = .ok lb →
      ∃ x y, p.execute input a = .ok x ∧ p.execute input b = .ok y ∧ x.Agrees y ∧
        x.Reaches ((p.live input).unsegmented a.maxCycles.toNat) ∧
        y.Reaches ((p.live input).unsegmented a.maxCycles.toNat)) ∧
    ∀ (c c' : Continuation) (input : Bytes) (la lb : RunLimits),
      c.unnumbered = c'.unnumbered →
      a.limits c.params input.length = .ok la → b.limits c'.params input.length = .ok lb →
      ∃ x y, c.resume input a = .ok x ∧ c'.resume input b = .ok y ∧ x.Agrees y ∧
        x.Reaches ((c.live input).unsegmented a.maxCycles.toNat) ∧
        y.Reaches ((c.live input).unsegmented a.maxCycles.toNat) := by
  constructor
  · intro p input la lb ha hb
    have hx := reaches_run la 0 (s := p.live input) rfl
    have hy := reaches_run lb 0 (s := p.live input) rfl
    rw [maxCycles_of_limits ha] at hx
    rw [maxCycles_of_limits hb, ← hcycles] at hy
    refine ⟨_, _, ?_, ?_, hx.agrees hy, hx, hy⟩
    · rw [Program.execute, ha]
      rfl
    · rw [Program.execute, hb]
      rfl
  · intro c c' input la lb hsame ha hb
    have hlive : c'.live input = c.live input := by
      have := congrArg (fun c => c.live input) hsame
      exact this.symm
    have hx := reaches_run la c.nextSegmentIndex (s := c.live input) rfl
    have hy := reaches_run lb c'.nextSegmentIndex (s := c'.live input) rfl
    rw [maxCycles_of_limits ha] at hx
    rw [maxCycles_of_limits hb, ← hcycles, hlive] at hy
    refine ⟨_, _, ?_, ?_, hx.agrees hy, hx, hy⟩
    · rw [Continuation.resume, ha]
      rfl
    · rw [Continuation.resume, hb, hlive]
      rfl

end Session

/-! ### A guest with all kinds of boundaries -/

namespace BusyGuest

/-- A program that reads a word, stores it in another page, loads from a third one, asks for a
boundary, loads the word, writes it to the journal and pauses. When it is resumed it reads and
writes what there is, and halts. -/
def code : List UInt32 :=
  [0x000022b7, 0x00300893, 0x00000073, 0x00a2a023, 0x4002a603, 0x00200893, 0x00000073,
   0x0002a503, 0x00400893, 0x00000073, 0x00700513, 0x00100893, 0x00000073,
   0x00300893, 0x00000073, 0x00400893, 0x00000073, 0x00000893, 0x00000073]

/-- The memory in which the program starts. -/
def memory : Memory :=
  code.zipIdx.foldl (fun m (word, i) => m.storeWord (minMemory + 4 * i.toUInt32) word) (.empty {})

/-- The program. -/
def program : Program := .make memory minMemory {} ⟨"", [], 0⟩

/-- Options under which only the guest makes boundaries. -/
def wide : ExecutionOptions := { maxCycles := 100 }

/-- Options under which a segment has room for five instructions and two pages. -/
def narrow : ExecutionOptions := { segmentLimit := 5, maxSegmentPages := 2, maxCycles := 100 }

/-- The limits that wide options set. -/
def wideLimits : RunLimits := ⟨0x100000, 100, 1024, by decide⟩

/-- The limits that narrow options set. -/
def narrowLimits : RunLimits := ⟨5, 100, 2, by decide⟩

/-- The session that ends in the pause. -/
def session (limits : RunLimits) : Session := .ofRun ((program.live [1, 2, 3, 4, 5]).run limits 0)

/-- The paused machine. -/
def pause (limits : RunLimits) : Continuation :=
  let e := (program.live [1, 2, 3, 4, 5]).run limits 0
  ⟨e.live.params, e.live.machine.cpu, e.live.world.memory, e.live.machine.output,
    e.live.journal.toList, e.nextIndex⟩

/-- The session that goes on from the pause. -/
def resumed (limits : RunLimits) : Session :=
  .ofRun (((pause limits).live [6, 7]).run limits (pause limits).nextSegmentIndex)

theorem execute_wide : program.execute [1, 2, 3, 4, 5] wide = .ok (session wideLimits) := rfl

theorem execute_narrow : program.execute [1, 2, 3, 4, 5] narrow = .ok (session narrowLimits) := rfl

/-- With wide options there is the boundary that the guest asks for. -/
theorem segments_wide : (session wideLimits).segments.map
    (fun s => (s.instructionCount, s.exitCode)) = [(7, .systemSplit), (6, .paused 7)] := by
  decide +kernel

/-- With narrow options there are a boundary in front of the third page, one that the guest asks for
and one behind five instructions. -/
theorem segments_narrow : (session narrowLimits).segments.map
    (fun s => (s.instructionCount, s.exitCode)) =
      [(4, .systemSplit), (3, .systemSplit), (5, .systemSplit), (1, .paused 7)] := by
  decide +kernel

theorem continuation_session {limits : RunLimits}
    (h : (session limits).info.exitCode = .paused 7) :
    (session limits).continuation = some (pause limits) := by
  rw [session, Session.ofRun, Session.continuationOf]
  rw [show ((program.live [1, 2, 3, 4, 5]).run limits 0).exit = .paused 7 from h]
  rfl

theorem params_pause : (pause wideLimits).params = {} ∧ (pause narrowLimits).params = {} := by
  decide +kernel

theorem resume_wide : (pause wideLimits).resume [6, 7] wide = .ok (resumed wideLimits) := by
  rw [Continuation.resume, params_pause.1]
  rfl

theorem resume_narrow : (pause narrowLimits).resume [6, 7] narrow = .ok (resumed narrowLimits) := by
  rw [Continuation.resume, params_pause.2]
  rfl

end BusyGuest

open BusyGuest in
/-- The guest pauses in the second or in the fourth segment, with the same word in its journal, and
halts in the third or in the sixth, with the same bytes behind it. -/
theorem Session.segmentation_transparent_busy :
    ∃ x y c c' u v,
      program.execute [1, 2, 3, 4, 5] wide = .ok x ∧
      program.execute [1, 2, 3, 4, 5] narrow = .ok y ∧
      x.segments.length = 2 ∧ y.segments.length = 4 ∧ x.Agrees y ∧
      x.info.exitCode = .paused 7 ∧ x.info.journal = [1, 2, 3, 4] ∧
      Segment.allReplies x.segments = [⟨0x04030201, 4⟩] ∧
      x.continuation = some c ∧ y.continuation = some c' ∧
      c.resume [6, 7] wide = .ok u ∧ c'.resume [6, 7] narrow = .ok v ∧
      u.segments.length = 1 ∧ v.segments.length = 2 ∧ u.Agrees v ∧
      u.info.journal = [1, 2, 3, 4, 6, 7] := by
  obtain ⟨hexecute, hresume⟩ := segmentation_transparent (a := wide) (b := narrow) rfl
  obtain ⟨x, y, hx, hy, hagrees, -⟩ :=
    hexecute program [1, 2, 3, 4, 5] wideLimits narrowLimits rfl rfl
  obtain rfl := Except.ok.inj (execute_wide.symm.trans hx)
  obtain rfl := Except.ok.inj (execute_narrow.symm.trans hy)
  have hexit : (session wideLimits).info.exitCode = .paused 7 := by decide +kernel
  have hc := continuation_session hexit
  have hc' := continuation_session (hagrees.exitCode_eq.symm.trans hexit)
  have hsame : (pause wideLimits).unnumbered = (pause narrowLimits).unnumbered := by
    have := hagrees.continuation_eq
    rw [hc, hc'] at this
    exact Option.some.inj this
  obtain ⟨u, v, hu, hv, hagrees', -⟩ := hresume (pause wideLimits) (pause narrowLimits) [6, 7]
    wideLimits narrowLimits hsame (by rw [params_pause.1]; rfl) (by rw [params_pause.2]; rfl)
  obtain rfl := Except.ok.inj (resume_wide.symm.trans hu)
  obtain rfl := Except.ok.inj (resume_narrow.symm.trans hv)
  have hwide := congrArg List.length segments_wide
  have hnarrow := congrArg List.length segments_narrow
  rw [List.length_map] at hwide hnarrow
  exact ⟨_, _, _, _, _, _, hx, hy, hwide, hnarrow, hagrees, hexit, by decide +kernel,
    by decide +kernel, hc, hc', hu, hv, by decide +kernel, by decide +kernel, hagrees',
    by decide +kernel⟩

end ReplayVM
