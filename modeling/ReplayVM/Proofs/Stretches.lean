import ReplayVM.Execution.Run
import ReplayVM.Proofs.Recording
import ReplayVM.Proofs.Verification

/-!
# Stretches of runs

What a segment executes is a stretch of a run: some instructions behind which execution goes on, and
a last one or a reason to stop. A segment is proven by executing its stretch again with the recorded
answers of the host; every instruction then gives a row, and the rows follow each other from the
state at the start to the state at the end. Along a stretch memory stays well formed and the running
hash is that of the journal.

## Main definitions

* `Live.Stretch`: a stretch of a run.
* `Live.Recorded`: the rows of a stretch that is executed again.
* `Live.JournalHashed`: a running machine whose running hash is that of its journal.

## Main results

* `Live.stretch_segmentEnd`: what a segment executes is a stretch.
* `Live.Stretch.wellFormedFor`, `Live.Stretch.journalHashed`: what a stretch keeps.
* `Live.Stretch.exists_recorded`: a stretch is recorded when it is executed again.
-/

namespace ReplayVM

/-! ### The journal of a machine -/

/-- The journal grows by some low bytes of a register or stays as it is. -/
theorem Machine.output_step {σ : Type} {bus : Bus σ} {params : Params} {m : Machine} {b : σ}
    {outcome : StepOutcome} (h : (m.step bus params b).result = .ok outcome) :
    (m.step bus params b).machine.output = m.output ∨
    ∃ count ≤ 4, (m.step bus params b).machine.output =
      m.output.absorb ((Bytes.ofWord (m.cpu.reg .a0)).take count) := by
  cases hf : canFetch params m.cpu.pc with
  | false =>
    rw [step_of_not_canFetch hf] at h
    simp at h
  | true =>
    cases hp : m.plan params (bus.fetch b m.cpu.pc).1 with
    | error reason =>
      rw [step_of_plan_error hf hp] at h
      simp at h
    | ok effect =>
      rw [step_of_plan_ok hf hp]
      cases Machine.proper_of_plan hp with
      | finish houtput => exact .inl houtput
      | write hcount _ houtput => exact .inr ⟨_, hcount, houtput⟩
      | load _ houtput => exact .inl (houtput _)
      | store _ houtput => exact .inl houtput
      | call houtput => exact .inl (houtput _)

theorem Output.absorb_append (o : Output) (a b : Bytes) :
    o.absorb (a ++ b) = (o.absorb a).absorb b := by
  simp [absorb, UInt32.add_assoc]

namespace Live

variable {s t u : Live} {outcome : StepOutcome} {reason : FaultReason} {exit : ExitCode}
  {count : Nat}

/-! ### Single instructions -/

theorem step_of_ok (h : s.step = (.ok outcome, t)) :
    (s.machine.step World.bus s.params s.world).result = .ok outcome ∧
      t = { s with
        machine := (s.machine.step World.bus s.params s.world).machine
        world := (s.machine.step World.bus s.params s.world).bus
        journal := s.journal ++
          written s.machine (s.machine.step World.bus s.params s.world).machine
        cycles := s.cycles + 1 } := by
  simp only [step] at h
  split at h
  · simp at h
  · rename_i outcome' hresult
    rw [Prod.mk.injEq, Except.ok.injEq] at h
    exact ⟨h.1 ▸ hresult, h.2.symm⟩

/-- An instruction that faults leaves a running machine, as fetching leaves its memory and input. -/
theorem step_of_result_error
    (h : (s.machine.step World.bus s.params s.world).result = .error reason) :
    s.step = (.error reason, s) := by
  simp only [step, h]
  obtain hstep | hstep := Machine.step_of_error h
  · rw [hstep]
  · rw [hstep]
    rfl

theorem step_of_error (h : s.step = (.error reason, t)) :
    (s.machine.step World.bus s.params s.world).result = .error reason ∧ t = s := by
  have hresult : (s.machine.step World.bus s.params s.world).result = .error reason := by
    simp only [step] at h
    split at h <;> simp_all
  rw [step_of_result_error hresult] at h
  exact ⟨hresult, (congrArg Prod.snd h).symm⟩

/-- The machine that executes again what a running machine executes. -/
def playback (s : Live) (replies : List HostReply) : Playback :=
  ⟨s.machine, s.world.memory, replies⟩

/-- An instruction executed again gives a row that leads to the state after it. -/
theorem exists_row (hm : s.world.memory.WellFormedFor s.params) (h : s.step = (.ok outcome, t)) :
    t.world.memory.WellFormedFor t.params ∧
    ∃ new : List HostReply, new.length ≤ 1 ∧ t.world.replies = s.world.replies ++ new.toArray ∧
      ∀ rest, ∃ row : Row, row.state = s.state ∧
        row.replay s.params = .ok (.ok outcome, t.state) ∧
        ∀ index, (s.playback (new ++ rest)).advance s.params index =
          .ok (outcome, row, t.playback rest) := by
  obtain ⟨hresult, rfl⟩ := step_of_ok h
  obtain ⟨new, hnew, hreplies, -, hrecord⟩ :=
    Playback.step_of_world s.params s.machine s.world
  have hrow (rest : List HostReply) := Playback.replay_row
    (p := s.playback (new ++ rest)) hm (hrecord rest).2.2.2.2
  refine ⟨?_, new, hnew, hreplies, fun rest => ?_⟩
  · have := (hrow []).2
    rwa [playback, (hrecord []).2.2.1] at this
  · obtain ⟨hres, hmachine, hmemory, hrest, hanswered⟩ := hrecord rest
    have hreplay := (hrow rest).1
    rw [playback, hres, hmachine, hmemory, hresult] at hreplay
    refine ⟨_, rfl, hreplay, fun index => ?_⟩
    simp only [Playback.advance, playback, hres, hresult, hanswered, hmachine, hmemory, hrest]
    rfl

/-- A faulting instruction executed again gives the fault, and its row is replayed to it. -/
theorem replay_of_error (hm : s.world.memory.WellFormedFor s.params)
    (h : s.step = (.error reason, t)) :
    ((s.playback []).step s.params).result = .error reason ∧
      ∃ state, Row.replay s.params ⟨s.state, ((s.playback []).step s.params).bus.fetch,
        ((s.playback []).step s.params).bus.data, none⟩ = .ok (.error reason, state) := by
  obtain ⟨hresult, -⟩ := step_of_error h
  obtain ⟨new, -, -, hnone, hrecord⟩ := Playback.step_of_world s.params s.machine s.world
  obtain rfl := hnone reason hresult
  obtain ⟨hres, -, -, -, hanswered⟩ := hrecord []
  have hreplay := (Playback.replay_row (p := s.playback []) hm hanswered).1
  have herror : ((s.playback []).step s.params).result = .error reason := hres.trans hresult
  rw [herror] at hreplay
  have hhost : ((s.playback []).step s.params).bus.host = none :=
    Row.host_eq_none_of_replay hreplay
  rw [Playback.row, hhost] at hreplay
  exact ⟨herror, _, hreplay⟩

/-! ### The journal -/

/-- A running machine whose running hash is that of its journal. -/
def JournalHashed (s : Live) : Prop := s.machine.output = Output.absorb {} s.journal.toList

/-- The bytes that an instruction is taken to have written are those that its output absorbed. -/
theorem absorb_written {before after : Machine}
    (h : after.output = before.output ∨ ∃ count ≤ 4, after.output =
      before.output.absorb ((Bytes.ofWord (before.cpu.reg .a0)).take count)) :
    after.output = before.output.absorb (written before after) := by
  rcases h with h | ⟨count, hcount, h⟩
  · simp [written, h, Output.absorb]
  · have hlen : (after.output.len - before.output.len).toNat = count := by
      have hlength : ((Bytes.ofWord (before.cpu.reg .a0)).take count).length = count := by
        rw [List.length_take, Bytes.length_ofWord]
        omega
      rw [h, Output.absorb, hlength, UInt32.add_comm, UInt32.add_sub_cancel]
      exact Nat.mod_eq_of_lt (by omega)
    rw [written, hlen, h]

theorem JournalHashed.step (hs : s.JournalHashed) (h : s.step = (.ok outcome, t)) :
    t.JournalHashed := by
  obtain ⟨hresult, rfl⟩ := step_of_ok h
  have habsorb := absorb_written (Machine.output_step hresult)
  simp only [JournalHashed] at hs ⊢
  rw [habsorb, hs, Array.toList_appendList, Output.absorb_append]

/-! ### Stretches -/

/-- A stretch of a run, with the exit of the segment that it makes up: instructions behind which
execution goes on, and then a last instruction that the exit allows, a boundary, or a fault. -/
inductive Stretch : Live → ExitCode → Nat → Live → Prop where
  | split (s : Live) : Stretch s .systemSplit 0 s
  | limit (s : Live) : Stretch s (.fault .sessionLimitExceeded) 0 s
  | fault {s t : Live} {reason : FaultReason} (h : s.step = (.error reason, t)) :
      Stretch s (.fault reason) 0 t
  | last {s t : Live} {outcome : StepOutcome} {exit : ExitCode} (h : s.step = (.ok outcome, t))
      (hneeds : exit.needsInstruction = true) (hexit : exit.allowsLast outcome = true) :
      Stretch s exit 1 t
  | next {s t u : Live} {exit : ExitCode} {count : Nat} (h : s.step = (.ok .next, t))
      (rest : Stretch t exit count u) : Stretch s exit (count + 1) u

/-- What is left of a segment is a stretch. -/
theorem stretch_runSegment (limits : RunLimits) (room : Nat) (pages : List UInt32) (count : Nat)
    (s : Live) :
    ∃ n ≤ room, (s.runSegment limits room pages count).count = count + n ∧
      s.Stretch (s.runSegment limits room pages count).exit n
        (s.runSegment limits room pages count).live := by
  fun_induction runSegment limits room pages count s with
  | case1 => exact ⟨0, Nat.zero_le _, rfl, .split _⟩
  | case2 => exact ⟨0, Nat.zero_le _, rfl, .limit _⟩
  | case3 => exact ⟨0, Nat.zero_le _, rfl, .split _⟩
  | case4 room pages count s _ fresh _ reason t h => exact ⟨0, Nat.zero_le _, rfl, .fault h⟩
  | case5 room pages count s _ fresh _ t h ih =>
    obtain ⟨n, hn, hcount, hstretch⟩ := ih
    exact ⟨n + 1, Nat.succ_le_succ hn, by rw [hcount]; omega, .next h hstretch⟩
  | case6 room pages count s _ fresh _ code t h =>
    exact ⟨1, by omega, rfl, .last h rfl (by simp [ExitCode.allowsLast])⟩
  | case7 room pages count s _ fresh _ code t h =>
    exact ⟨1, by omega, rfl, .last h rfl (by simp [ExitCode.allowsLast])⟩
  | case8 room pages count s _ fresh _ t h =>
    exact ⟨1, by omega, rfl, .last h rfl (by simp [ExitCode.allowsLast])⟩

/-- What a segment executes is a stretch of at most as many instructions as it has room for. -/
theorem stretch_segmentEnd (limits : RunLimits) (s : Live) :
    (s.segmentEnd limits).count ≤ limits.segmentLimit ∧
      s.fresh.Stretch (s.segmentEnd limits).exit (s.segmentEnd limits).count
        (s.segmentEnd limits).live := by
  obtain ⟨n, hn, hcount, hstretch⟩ := stretch_runSegment limits limits.segmentLimit [] 0 s.fresh
  rw [Nat.zero_add] at hcount
  exact ⟨hcount ▸ hn, hcount ▸ hstretch⟩

namespace Stretch

theorem params_eq (h : s.Stretch exit count t) : t.params = s.params := by
  induction h with
  | split s => rfl
  | limit s => rfl
  | fault h => rw [(step_of_error h).2]
  | last h _ _ => rw [(step_of_ok h).2]
  | next h _ ih => rw [ih, (step_of_ok h).2]

theorem cycles_eq (h : s.Stretch exit count t) : t.cycles = s.cycles + count := by
  induction h with
  | split s => rfl
  | limit s => rfl
  | fault h => exact cycles_step_of_error h
  | last h _ _ => exact cycles_step_of_ok h
  | next h _ ih =>
    rw [ih, cycles_step_of_ok h]
    omega

/-- A stretch keeps memory well formed. -/
theorem wellFormedFor (h : s.Stretch exit count t) (hm : s.world.memory.WellFormedFor s.params) :
    t.world.memory.WellFormedFor t.params := by
  induction h with
  | split s => exact hm
  | limit s => exact hm
  | fault h => rwa [(step_of_error h).2]
  | last h _ _ => exact (exists_row hm h).1
  | next h _ ih => exact ih (exists_row hm h).1

/-- A stretch keeps the running hash that of the journal. -/
theorem journalHashed (h : s.Stretch exit count t) (hs : s.JournalHashed) : t.JournalHashed := by
  induction h with
  | split s => exact hs
  | limit s => exact hs
  | fault h => rwa [(step_of_error h).2]
  | last h _ _ => exact hs.step h
  | next h _ ih => exact ih (hs.step h)

/-- A stretch that ends in the fault of an instruction ends where the next step faults. -/
theorem step_of_finalFault (h : s.Stretch exit count t) (hexit : exit.finalFault = some reason) :
    t.step = (.error reason, t) := by
  induction h with
  | split s => simp [ExitCode.finalFault] at hexit
  | limit s => simp [ExitCode.finalFault] at hexit
  | @fault s t reason' h =>
    obtain ⟨-, rfl⟩ := step_of_error h
    have : reason' = reason := by
      cases reason' <;> simp_all [ExitCode.finalFault]
    exact this ▸ h
  | @last s t outcome exit h hneeds _ =>
    cases exit <;> simp_all [ExitCode.finalFault, ExitCode.needsInstruction]
  | next _ _ ih => exact ih hexit

end Stretch

/-- A segment whose exit is the effect of an instruction has one. -/
theorem count_segmentEnd_pos {limits : RunLimits} {s : Live}
    (h : (s.segmentEnd limits).exit.needsInstruction = true) : 0 < (s.segmentEnd limits).count := by
  obtain ⟨-, hstretch⟩ := stretch_segmentEnd limits s
  by_cases hsplit : (s.segmentEnd limits).exit = .systemSplit
  · have hlt := (cycles_lt_of_split hsplit).2
    have hcycles : (s.segmentEnd limits).live.cycles = s.cycles + (s.segmentEnd limits).count :=
      hstretch.cycles_eq
    omega
  · generalize s.segmentEnd limits = e at *
    obtain ⟨exit, count, live⟩ := e
    cases hstretch with
    | split => exact absurd rfl hsplit
    | limit => simp [ExitCode.needsInstruction] at h
    | fault => simp [ExitCode.needsInstruction] at h
    | last => exact Nat.one_pos
    | next => exact Nat.succ_pos _

namespace Stretch

/-! ### Rows of a stretch -/

/-- Behind a stretch without instructions, going on is an outcome that the exit allows. -/
theorem allowsLast_of_zero (h : s.Stretch exit 0 t) : exit.allowsLast .next = true := by
  cases h <;> simp [ExitCode.allowsLast]

theorem checkOutcome_next (h : s.Stretch exit count t) (index : Nat) :
    Playback.checkOutcome exit index (count = 0) .next = .ok () := by
  unfold Playback.checkOutcome
  by_cases hcount : count = 0
  · subst hcount
    simp [h.allowsLast_of_zero]
  · simp [hcount]

theorem allows_next (h : s.Stretch exit count t) {c : SegmentClaim} (hexit : c.exitCode = exit)
    {index : Nat} (hcount : c.instructionCount.toNat = index + (count + 1)) :
    c.allows index .next = true := by
  unfold SegmentClaim.allows
  split
  · obtain rfl : count = 0 := by omega
    rw [hexit]
    exact h.allowsLast_of_zero
  · rfl

end Stretch

/-! ### Recording -/

/-- The rows of a stretch that is executed again with some answers of the host, of which some are
left over. Each of them is replayed, and in front of a row of the state at the end they lead there
from the state at the start. -/
structure Recorded (s : Live) (exit : ExitCode) (count : Nat) (t : Live)
    (replies rest : List HostReply) (rows : List Row) : Prop where
  length_rows : rows.length = count
  rows_eq : ∀ index,
    (s.playback replies).rows s.params exit count index = .ok (rows, t.playback rest)
  replayed : ∀ row ∈ rows, ∃ result, row.replay s.params = .ok result
  first_eq : ∀ last : Row, last.state = t.state →
    ∀ first ∈ (rows ++ [last]).head?, first.state = s.state
  rows_follow : ∀ last : Row, last.state = t.state → ∀ (c : SegmentClaim) (index : Nat),
    c.exitCode = exit → c.instructionCount.toNat = index + count →
    c.RowsFollow s.params index (rows ++ [last])

namespace Recorded

variable {replies rest : List HostReply} {row : Row} {rows : List Row}

theorem nil (s : Live) (exit : ExitCode) (rest : List HostReply) :
    s.Recorded exit 0 s rest rest [] where
  length_rows := rfl
  rows_eq _ := rfl
  replayed := by simp
  first_eq last hlast := by simpa using hlast
  rows_follow _ _ _ _ _ _ := trivial

/-- The row of the last instruction. -/
theorem single (hstate : row.state = s.state)
    (hreplay : row.replay s.params = .ok (.ok outcome, t.state))
    (hadvance : ∀ index, (s.playback replies).advance s.params index =
      .ok (outcome, row, t.playback rest)) (hexit : exit.allowsLast outcome = true) :
    s.Recorded exit 1 t replies rest [row] where
  length_rows := rfl
  rows_eq index := by
    simp [Playback.rows, hadvance, Playback.checkOutcome, hexit, bind, Except.bind, pure,
      Except.pure]
  replayed row' hmem := by
    obtain rfl := List.mem_singleton.mp hmem
    exact ⟨_, hreplay⟩
  first_eq last _ := by simpa using hstate
  rows_follow last hlast c index hc hcount := by
    refine ⟨⟨outcome, t.state, hreplay, ?_, by rw [hlast]⟩, trivial⟩
    rw [SegmentClaim.allows, if_pos hcount.symm, hc, hexit]

/-- The row of an instruction in front of a stretch. -/
theorem cons {replies' : List HostReply} (hparams : t.params = s.params)
    (hstate : row.state = s.state) (hreplay : row.replay s.params = .ok (.ok .next, t.state))
    (hadvance : ∀ index, (s.playback replies).advance s.params index =
      .ok (.next, row, t.playback replies')) (hrest : t.Stretch exit count u)
    (h : t.Recorded exit count u replies' rest rows) :
    s.Recorded exit (count + 1) u replies rest (row :: rows) where
  length_rows := by rw [List.length_cons, h.length_rows]
  rows_eq index := by
    have hrows := h.rows_eq (index + 1)
    rw [hparams] at hrows
    simp [Playback.rows, hadvance, hrest.checkOutcome_next, hrows, bind, Except.bind, pure,
      Except.pure]
  replayed row' hmem := by
    rcases List.mem_cons.mp hmem with rfl | hmem
    · exact ⟨_, hreplay⟩
    · exact hparams ▸ h.replayed row' hmem
  first_eq last _ := by simpa using hstate
  rows_follow last hlast c index hc hcount := by
    have hfirst := h.first_eq last hlast
    have htail := h.rows_follow last hlast c (index + 1) hc (by omega)
    rw [hparams] at htail
    cases hr : rows ++ [last] with
    | nil => simp at hr
    | cons next tail =>
      rw [hr] at hfirst htail
      rw [List.cons_append, hr]
      refine ⟨⟨.next, t.state, hreplay, hrest.allows_next hc hcount, ?_⟩, htail⟩
      rw [hfirst next rfl]

end Recorded

/-- A stretch is recorded when it is executed again with the answers of the host that it got. -/
theorem Stretch.exists_recorded (h : s.Stretch exit count t)
    (hm : s.world.memory.WellFormedFor s.params) :
    ∃ new : List HostReply, new.length ≤ count ∧ t.world.replies = s.world.replies ++ new.toArray ∧
      ∀ rest, ∃ rows, s.Recorded exit count t (new ++ rest) rest rows := by
  induction h with
  | split s | limit s =>
    exact ⟨[], Nat.le_refl _, by simp, fun rest => ⟨[], .nil s _ rest⟩⟩
  | fault h =>
    obtain ⟨-, rfl⟩ := step_of_error h
    exact ⟨[], Nat.le_refl _, by simp, fun rest => ⟨[], .nil _ _ rest⟩⟩
  | last h _ hexit =>
    obtain ⟨-, new, hnew, hreplies, hrow⟩ := exists_row hm h
    refine ⟨new, hnew, hreplies, fun rest => ?_⟩
    obtain ⟨row, hstate, hreplay, hadvance⟩ := hrow rest
    exact ⟨[row], .single hstate hreplay hadvance hexit⟩
  | @next s t u exit count h hrest ih =>
    obtain ⟨hmt, new, hnew, hreplies, hrow⟩ := exists_row hm h
    obtain ⟨new', hnew', hreplies', hrows⟩ := ih hmt
    refine ⟨new ++ new', by rw [List.length_append]; omega, by simp [hreplies', hreplies],
      fun rest => ?_⟩
    obtain ⟨row, hstate, hreplay, hadvance⟩ := hrow (new' ++ rest)
    obtain ⟨rows, hrecorded⟩ := hrows rest
    have hparams : t.params = s.params := by rw [(step_of_ok h).2]
    rw [List.append_assoc]
    exact ⟨row :: rows, .cons hparams hstate hreplay hadvance hrest hrecorded⟩

end Live

end ReplayVM
