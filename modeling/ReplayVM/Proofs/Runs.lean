import Mathlib.Data.List.Chain
import ReplayVM.Proofs.Composition
import ReplayVM.Proofs.Stretches

/-!
# Runs

A run executes one segment after the other until one of them is not split off. What its segments
have in common with each other and with the summary of the run follows from what a single segment
does: its counters start where the segment before left them.

## Main definitions

* `Live.Runs`: runs, segment by segment.
* `Segment.Consecutive`: segments that follow each other, from one state to another.

## Main results

* `Live.runs_run`: running a machine is such a run.
* `Live.Runs.consecutive`, `Live.Runs.exits`: how the segments of a run follow each other.
* `Live.Runs.cycles_eq`, `Live.Runs.prefix_journal`: what a run counts and writes.
-/

namespace ReplayVM

/-! ### Segments in a row -/

/-- Segments numbered from an index on. The first one starts at a commitment, each further one where
the one before ends, and the last one ends at a commitment. -/
structure Segment.Consecutive (index : Nat) (start : Digest) (segments : List Segment)
    (stop : Digest) : Prop where
  ne_nil : segments ≠ []
  index_eq : ∀ i s, segments[i]? = some s → s.index.toNat = index + i
  start_eq : ∀ s ∈ segments.head?, s.startCommitment = start
  chained : segments.IsChain fun a b => a.endCommitment = b.startCommitment
  stop_eq : ∀ s ∈ segments.getLast?, s.endCommitment = stop

/-- Rows of segments that meet are one row. -/
theorem Segment.Consecutive.append {index : Nat} {start middle stop : Digest}
    {as bs : List Segment} (h : Consecutive index start as middle)
    (h' : Consecutive (index + as.length) middle bs stop) :
    Consecutive index start (as ++ bs) stop where
  ne_nil := by simp [h.ne_nil]
  index_eq i s hs := by
    rw [List.getElem?_append] at hs
    split at hs
    · exact h.index_eq i s hs
    · rw [h'.index_eq _ s hs]
      omega
  start_eq s hs := by
    rw [List.head?_append_of_ne_nil _ h.ne_nil] at hs
    exact h.start_eq s hs
  chained := List.isChain_append.mpr ⟨h.chained, h'.chained, fun a ha b hb =>
    (h.stop_eq a ha).trans (h'.start_eq b hb).symm⟩
  stop_eq s hs := by
    rw [List.getLast?_append_of_ne_nil _ h'.ne_nil] at hs
    exact h'.stop_eq s hs

namespace Live

variable {limits : RunLimits} {index : UInt32} {s t : Live} {e : RunEnd}

/-! ### Single segments -/

/-- An instruction adds to the journal. -/
theorem prefix_journal_step {outcome : StepOutcome} (h : s.step = (.ok outcome, t)) :
    s.journal.toList <+: t.journal.toList := by
  rw [(step_of_ok h).2, Array.toList_appendList]
  exact List.prefix_append _ _

theorem Stretch.prefix_journal {exit : ExitCode} {count : Nat} (h : s.Stretch exit count t) :
    s.journal.toList <+: t.journal.toList := by
  induction h with
  | split s => exact List.prefix_refl _
  | limit s => exact List.prefix_refl _
  | fault h => exact (step_of_error h).2 ▸ List.prefix_refl _
  | last h _ _ => exact prefix_journal_step h
  | next h _ ih => exact (prefix_journal_step h).trans ih

/-- No instruction is executed when the cycles of the run are used up. -/
theorem cycles_runSegment_le {room : Nat} {pages : List UInt32} {count : Nat}
    (h : s.cycles ≤ limits.maxCycles) :
    (s.runSegment limits room pages count).live.cycles ≤ limits.maxCycles := by
  fun_induction runSegment limits room pages count s with
  | case1 => exact h
  | case2 => exact h
  | case3 => exact h
  | case4 room pages count s _ fresh _ reason t hstep => exact cycles_step_of_error hstep ▸ h
  | case5 room pages count s hlt fresh _ t hstep ih =>
    exact ih (cycles_step_of_ok hstep ▸ Nat.lt_of_not_le hlt)
  | case6 room pages count s hlt fresh _ code t hstep =>
    exact cycles_step_of_ok hstep ▸ Nat.lt_of_not_le hlt
  | case7 room pages count s hlt fresh _ code t hstep =>
    exact cycles_step_of_ok hstep ▸ Nat.lt_of_not_le hlt
  | case8 room pages count s hlt fresh _ t hstep =>
    exact cycles_step_of_ok hstep ▸ Nat.lt_of_not_le hlt

/-- A segment is a row of its own. -/
theorem consecutive_segment (limits : RunLimits) (index : UInt32) (s : Live) :
    Segment.Consecutive index.toNat s.state.commitment [s.segment index (s.segmentEnd limits)]
      (s.segmentEnd limits).live.state.commitment where
  ne_nil := by simp
  index_eq i x hx := by
    obtain ⟨rfl, rfl⟩ : i = 0 ∧ s.segment index (s.segmentEnd limits) = x := by
      cases i <;> simp_all
    rfl
  start_eq := by simp [segment]
  chained := by simp
  stop_eq := by simp [segment]

/-- A segment states how many instructions it executed. -/
theorem instructionCount_segment (hlimit : limits.segmentLimit < UInt32.size) (index : UInt32)
    (s : Live) :
    (s.segment index (s.segmentEnd limits)).instructionCount.toNat = (s.segmentEnd limits).count :=
  UInt32.toNat_ofNat_of_lt' (Nat.lt_of_le_of_lt (stretch_segmentEnd limits s).1 hlimit)

/-! ### Runs, segment by segment -/

/-- A run of a machine: its segments are split off, but for the last one, with which it ends. -/
inductive Runs (limits : RunLimits) : UInt32 → Live → RunEnd → Prop where
  | last {index : UInt32} {s : Live} (h : (s.segmentEnd limits).exit ≠ .systemSplit) :
      Runs limits index s ⟨[s.segment index (s.segmentEnd limits)], (s.segmentEnd limits).exit,
        (s.segmentEnd limits).live, index + 1⟩
  | split {index : UInt32} {s : Live} {e : RunEnd} (h : (s.segmentEnd limits).exit = .systemSplit)
      (rest : Runs limits (index + 1) (s.segmentEnd limits).live e) :
      Runs limits index s
        { e with segments := s.segment index (s.segmentEnd limits) :: e.segments }

/-- Behind the segments so far stands a run. -/
theorem runs_runFrom (limits : RunLimits) (done : Array Segment) (index : UInt32) (s : Live) :
    ∃ e, Runs limits index s e ∧
      s.runFrom limits done index = { e with segments := done.toList ++ e.segments } := by
  fun_induction runFrom limits done index s with
  | case1 done index s e done' hsplit ih =>
    obtain ⟨r, hruns, hr⟩ := ih
    exact ⟨_, .split hsplit hruns, by rw [hr]; simp [done', e]⟩
  | case2 done index s e done' hsplit => exact ⟨_, .last hsplit, by simp [done', e]⟩

/-- Running a machine is a run. -/
theorem runs_run (limits : RunLimits) (index : UInt32) (s : Live) :
    Runs limits index s (s.run limits index) := by
  obtain ⟨e, hruns, he⟩ := runs_runFrom limits #[] index s
  rw [run, he]
  exact hruns

namespace Runs

/-- Every segment but the last is split off, and the last one ends as the run does. -/
theorem exits (h : Runs limits index s e) : ∃ init last, e.segments = init ++ [last] ∧
    (∀ x ∈ init, x.exitCode = .systemSplit) ∧ last.exitCode = e.exit ∧ e.exit ≠ .systemSplit ∧
      last.outputDigest = e.live.machine.output.digest := by
  induction h with
  | last h => exact ⟨[], _, rfl, by simp, rfl, h, rfl⟩
  | @split index s e h rest ih =>
    obtain ⟨init, last, hsegments, hinit, hlast⟩ := ih
    refine ⟨s.segment index (s.segmentEnd limits) :: init, last, by simp [hsegments], ?_, hlast⟩
    exact List.forall_mem_cons.mpr ⟨h, hinit⟩

theorem params_eq (h : Runs limits index s e) : e.live.params = s.params := by
  induction h with
  | @last index s h => exact (stretch_segmentEnd limits s).2.params_eq
  | @split index s e h rest ih => exact ih.trans (stretch_segmentEnd limits s).2.params_eq

theorem nextIndex_eq (h : Runs limits index s e) :
    e.nextIndex = index + e.segments.length.toUInt32 := by
  induction h with
  | last h => rfl
  | split h rest ih =>
    rw [ih, List.length_cons, UInt32.add_assoc, UInt32.add_comm 1]
    simp

/-- The segments of a run follow each other, unless their indices run out. -/
theorem consecutive (h : Runs limits index s e)
    (hlen : index.toNat + e.segments.length ≤ UInt32.size) :
    Segment.Consecutive index.toNat s.state.commitment e.segments e.live.state.commitment := by
  induction h with
  | last h => exact consecutive_segment limits _ _
  | @split index s e h rest ih =>
    have hpos : 0 < e.segments.length := by
      obtain ⟨init, last, hsegments, -⟩ := rest.exits
      simp [hsegments]
    rw [List.length_cons] at hlen
    have hindex : (index + 1).toNat = index.toNat + 1 := toNat_add_one_of_lt (by omega)
    exact (consecutive_segment limits index s).append (hindex ▸ ih (by omega))

/-- A run counts the instructions of its segments. -/
theorem cycles_eq (h : Runs limits index s e) (hlimit : limits.segmentLimit < UInt32.size) :
    e.live.cycles = s.cycles + (e.segments.map fun x => x.instructionCount.toNat).sum := by
  induction h with
  | @last index s h =>
    rw [List.map_singleton, List.sum_singleton, instructionCount_segment hlimit]
    exact (stretch_segmentEnd limits s).2.cycles_eq
  | @split index s e h rest ih =>
    rw [List.map_cons, List.sum_cons, instructionCount_segment hlimit, ← Nat.add_assoc]
    have : (s.segmentEnd limits).live.cycles = s.cycles + (s.segmentEnd limits).count :=
      (stretch_segmentEnd limits s).2.cycles_eq
    rw [← this]
    exact ih

/-- A run keeps to its cycles. -/
theorem cycles_le (h : Runs limits index s e) (hs : s.cycles ≤ limits.maxCycles) :
    e.live.cycles ≤ limits.maxCycles := by
  induction h with
  | @last index s h => exact cycles_runSegment_le (s := s.fresh) hs
  | @split index s e h rest ih => exact ih (cycles_runSegment_le (s := s.fresh) hs)

/-- A run adds to the journal. -/
theorem prefix_journal (h : Runs limits index s e) :
    s.journal.toList <+: e.live.journal.toList := by
  induction h with
  | @last index s h => exact (stretch_segmentEnd limits s).2.prefix_journal
  | @split index s e h rest ih =>
    have hfirst : s.journal.toList <+: (s.segmentEnd limits).live.journal.toList :=
      (stretch_segmentEnd limits s).2.prefix_journal
    exact hfirst.trans ih

end Runs

end Live

end ReplayVM
