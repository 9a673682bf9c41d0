import ReplayVM.Proofs.SessionChains

/-!
# Reachable machines

The journal is kept twice. An instruction updates its length and its running hash, which belong to
the state; the bytes are put together outside of it, from the registers before the instruction and
the lengths before and after. In every machine that a program reaches, over segment boundaries,
pauses and resumes, the two belong together, the journal is within its limit, and the position in
the input is within the input. So putting the bytes together never meets lengths or registers that
do not fit.

## Main definitions

* `Machine.Leaves`: what every instruction leaves of registers and journal.
* `Machine.captured?`: the written bytes, with all checks on lengths and registers.
* `Program.Reaches`: the machines that a program reaches.
* `Live.Accounted`: a machine whose journal is accounted for.

## Main results

* `Live.leaves_of_step`: instructions keep `x0`, and write to the journal in one system call only.
* `Program.Reaches.accounted`: every reachable machine is accounted for.
* `Program.reaches_accounted`: what follows for instructions and sessions.
-/

namespace ReplayVM

/-! ### What an instruction leaves -/

theorem Cpu.reg_overwrite_of_ne {r q : Reg} (h : r ≠ q) (cpu : Cpu) (value : UInt32) :
    (cpu.overwrite r value).reg q = cpu.reg q :=
  Vector.getElem_set_ne r.isLt q.isLt fun heq => h (Fin.ext heq)

/-- An answer of the host leaves the registers other than `a0` and `a1`. -/
theorem Cpu.reg_answer {q : Reg} (h0 : q ≠ .a0) (h1 : q ≠ .a1) (cpu : Cpu) (reply : HostReply) :
    ((cpu.overwrite .a0 reply.a0).overwrite .a1 reply.a1).reg q = cpu.reg q :=
  (Cpu.reg_overwrite_of_ne h1.symm _ _).trans (Cpu.reg_overwrite_of_ne h0.symm _ _)

namespace Machine

/-- The system call that writes to the journal. -/
def writeCall : UInt32 := 4

/-- A write to the journal: up to four low bytes of a register, as far as there is room. -/
structure Writes (before after : Machine) : Prop where
  call_eq : before.cpu.reg .a7 = writeCall
  count_le : (before.cpu.reg .a1).toNat ≤ 4
  room : before.output.len.toNat + (before.cpu.reg .a1).toNat ≤ maxOutputLen
  output_eq : after.output = before.output.absorb
    ((Bytes.ofWord (before.cpu.reg .a0)).take (before.cpu.reg .a1).toNat)

/-- What an instruction leaves: `x0` as it was, and the journal as it was or after a write. -/
structure Leaves (before after : Machine) : Prop where
  zero_eq : after.cpu.reg .zero = before.cpu.reg .zero
  output_eq : after.output = before.output ∨ before.Writes after

variable {m : Machine}

/-- Writing the destination leaves the other registers, and `x0`. -/
theorem reg_setReg_of_not_mem {r q : Reg} (h : q ∉ if r = Reg.zero then [] else [r]) (m : Machine)
    (value : UInt32) : (m.setReg r value).cpu.reg q = m.cpu.reg q := by
  unfold setReg Cpu.setReg
  split
  · rfl
  · rename_i hr
    rw [if_neg hr, List.mem_singleton] at h
    exact Cpu.reg_overwrite_of_ne (Ne.symm h) _ _

@[simp] theorem reg_setReg_zero (m : Machine) (r : Reg) (value : UInt32) :
    (m.setReg r value).cpu.reg .zero = m.cpu.reg .zero := by
  refine reg_setReg_of_not_mem ?_ m value
  split
  · simp
  · rename_i hr
    simpa using Ne.symm hr

theorem leaves_setReg (m : Machine) (r : Reg) (value pc : UInt32) :
    m.Leaves ((m.setReg r value).jump pc) :=
  ⟨m.reg_setReg_zero r value, .inl rfl⟩

theorem leaves_jump (m : Machine) (pc : UInt32) : m.Leaves (m.jump pc) := ⟨rfl, .inl rfl⟩

theorem leaves_answer (m : Machine) (reply : HostReply) :
    m.Leaves { m with cpu := (m.cpu.overwrite .a0 reply.a0).overwrite .a1 reply.a1 }.advance :=
  ⟨Cpu.reg_answer (by decide) (by decide) _ _, .inl rfl⟩

variable {σ : Type} {bus : Bus σ} {b : σ} {params : Params}

theorem leaves_of_follows {inst : Instruction} {effect : Effect}
    (h : effect.Follows params m inst) : m.Leaves (effect.run bus b).machine := by
  cases h with
  | compute | load => exact m.leaves_setReg _ _ _
  | move | store | halt | pause | yield => exact m.leaves_jump _
  | write hcall hcount hroom =>
    -- The write is the only call that touches the journal; its checks are those of `Writes`.
    exact ⟨rfl, .inr ⟨hcall, UInt32.le_iff_toNat_le.mp hcount, hroom, rfl⟩⟩
  | call => exact m.leaves_answer _

/-- Every instruction leaves `x0` as it was, and the journal as it was or after a write. -/
theorem leaves_step {outcome : StepOutcome} (h : (m.step bus params b).result = .ok outcome) :
    m.Leaves (m.step bus params b).machine := by
  obtain ⟨-, inst, effect, -, hfollows, hstep⟩ := exists_follows_of_ok h
  rw [hstep]
  exact leaves_of_follows hfollows

/-- An instruction leaves the input as it was, or as a call of the host leaves it. -/
theorem input_step (params : Params) (m : Machine) (w : World) :
    (m.step World.bus params w).bus.input = w.input ∨
      ∃ request, (m.step World.bus params w).bus.input = (w.input.answer request).2 := by
  cases hf : canFetch params m.cpu.pc with
  | false => exact .inl (by rw [step_of_not_canFetch hf])
  | true =>
    cases hp : m.plan params (World.bus.fetch w m.cpu.pc).1 with
    | error reason =>
      rw [step_of_plan_error hf hp]
      exact .inl rfl
    | ok effect =>
      rw [step_of_plan_ok hf hp]
      cases effect with
      | finish outcome machine => exact .inl rfl
      | load addr machine => exact .inl rfl
      | store addr merge machine => exact .inl rfl
      | call request machine => exact .inr ⟨request, rfl⟩

/-! ### Putting the written bytes together -/

/-- The bytes that are appended to the journal behind an instruction. There are none if the lengths
or the registers do not fit: if the journal has become shorter, or if a write has made it longer by
another number of bytes than it was asked for or than a register holds. -/
def captured? (before after : Machine) : Option Bytes :=
  if after.output.len < before.output.len then none
  else
    let count := after.output.len - before.output.len
    if 0 < count ∧ before.cpu.reg .a7 = writeCall then
      if count = before.cpu.reg .a1 ∧ count.toNat ≤ 4 then
        some ((Bytes.ofWord (before.cpu.reg .a0)).take count.toNat)
      else none
    else some []

variable {before after : Machine}

/-- A write makes the journal longer by as many bytes as it was asked for. -/
theorem Writes.toNat_len (h : before.Writes after) :
    after.output.len.toNat = before.output.len.toNat + (before.cpu.reg .a1).toNat := by
  rw [h.output_eq, Output.absorb, List.length_take, Bytes.length_ofWord,
    Nat.min_eq_left h.count_le, Nat.toUInt32_eq, UInt32.ofNat_toNat]
  exact toNat_add_of_lt (Nat.lt_of_le_of_lt h.room (by decide))

theorem Writes.len_sub (h : before.Writes after) :
    after.output.len - before.output.len = before.cpu.reg .a1 := by
  have hle : before.output.len ≤ after.output.len := by
    rw [UInt32.le_iff_toNat_le, h.toNat_len]
    exact Nat.le_add_right _ _
  refine UInt32.toNat_inj.mp ?_
  rw [UInt32.toNat_sub_of_le _ _ hle, h.toNat_len]
  exact Nat.add_sub_cancel_left _ _

/-- The lengths and the registers around an instruction fit. -/
theorem Leaves.captured?_eq (h : before.Leaves after) :
    before.captured? after = some (Live.written before after) := by
  rcases h.output_eq with houtput | hwrites
  · simp [captured?, Live.written, houtput]
  · have hlt : ¬after.output.len < before.output.len := by
      rw [UInt32.lt_iff_toNat_lt, hwrites.toNat_len]
      omega
    rw [captured?, if_neg hlt, Live.written]
    simp only [hwrites.len_sub, hwrites.call_eq, hwrites.count_le, and_true, if_true]
    split
    · rfl
    · rename_i hzero
      obtain hzero : before.cpu.reg .a1 = 0 := by
        rw [UInt32.lt_iff_toNat_lt, UInt32.toNat_zero] at hzero
        exact UInt32.toNat_inj.mp (by rw [UInt32.toNat_zero]; omega)
      simp [hzero]

/-- The output after an instruction is that before it with the written bytes, whose number the
length can hold. -/
theorem Leaves.output_written (h : before.Leaves after) :
    after.output = before.output.absorb (Live.written before after) ∧
      after.output.len.toNat =
        before.output.len.toNat + (Live.written before after).length := by
  rcases h.output_eq with houtput | hwrites
  · simp [Live.written, houtput, Output.absorb]
  · have hwritten : Live.written before after =
        (Bytes.ofWord (before.cpu.reg .a0)).take (before.cpu.reg .a1).toNat := by
      rw [Live.written, hwrites.len_sub]
    refine ⟨hwritten ▸ hwrites.output_eq, ?_⟩
    rw [hwrites.toNat_len, hwritten, List.length_take, Bytes.length_ofWord,
      Nat.min_eq_left hwrites.count_le]

/-- An instruction keeps the journal within its limit. -/
theorem Leaves.len_le (h : before.Leaves after) (hle : before.output.len.toNat ≤ maxOutputLen) :
    after.output.len.toNat ≤ maxOutputLen := by
  rcases h.output_eq with houtput | hwrites
  · rwa [houtput]
  · exact hwrites.toNat_len ▸ hwrites.room

end Machine

/-! ### Machines that are accounted for -/

/-- A running machine on an input, with `x0` zero, with a journal within its limit that its length
and its running hash belong to, and with a position within the input. -/
structure Live.Accounted (input : Bytes) (s : Live) : Prop where
  zero_eq : s.machine.cpu.reg .zero = 0
  len_eq : s.machine.output.len.toNat = s.journal.size
  len_le : s.journal.size ≤ maxOutputLen
  digest_eq : s.machine.output.digest = journalDigest s.journal.toList
  input_eq : s.world.input.bytes = input
  position : s.world.input.pos ≤ input.length

namespace Live

variable {input : Bytes} {s t : Live} {outcome : StepOutcome}

theorem step_eq_of_fst (h : s.step.1 = .ok outcome) : s.step = (.ok outcome, s.step.2) :=
  Prod.ext h rfl

theorem leaves_of_step (h : s.step = (.ok outcome, t)) : s.machine.Leaves t.machine := by
  obtain ⟨hresult, rfl⟩ := step_of_ok h
  exact Machine.leaves_step hresult

/-- A program starts with a machine that is accounted for. -/
theorem accounted_live (p : Program) (input : Bytes) : (p.live input).Accounted input where
  zero_eq := by
    refine (Cpu.reg_overwrite_of_ne (by decide) _ _).trans ?_
    exact Vector.getElem_replicate _
  len_eq := rfl
  len_le := Nat.zero_le _
  digest_eq := rfl
  input_eq := rfl
  position := Nat.zero_le _

namespace Accounted

/-- An instruction keeps the input, and the position within it. -/
theorem input_step (hs : s.Accounted input) (h : s.step = (.ok outcome, t)) :
    t.world.input.bytes = input ∧ t.world.input.pos ≤ input.length := by
  obtain ⟨-, rfl⟩ := step_of_ok h
  rcases Machine.input_step s.params s.machine s.world with hinput | ⟨request, hinput⟩
  · exact hinput ▸ ⟨hs.input_eq, hs.position⟩
  · have hbytes := (s.world.input.answer_move request).1.trans hs.input_eq
    have hrange : (s.world.input.answer request).2.InRange := by
      refine Input.InRange.answer ?_ request
      rw [Input.InRange, hs.input_eq]
      exact hs.position
    rw [Input.InRange, hbytes] at hrange
    exact hinput ▸ ⟨hbytes, hrange⟩

/-- An instruction leaves a machine that is accounted for. -/
theorem step (hs : s.Accounted input) (h : s.step = (.ok outcome, t)) : t.Accounted input := by
  have hleaves := leaves_of_step h
  obtain ⟨houtput, hlen⟩ := hleaves.output_written
  obtain ⟨-, ht⟩ := step_of_ok h
  have hjournal : t.journal = s.journal ++ written s.machine t.machine := by rw [ht]
  have hsize : t.machine.output.len.toNat = t.journal.size := by
    rw [hlen, hs.len_eq, hjournal, ← Array.length_toList, ← Array.length_toList,
      Array.toList_appendList, List.length_append]
  obtain ⟨hinput, hposition⟩ := hs.input_step h
  refine ⟨hleaves.zero_eq.trans hs.zero_eq, hsize, ?_, ?_, hinput, hposition⟩
  · exact hsize ▸ hleaves.len_le (hs.len_eq ▸ hs.len_le)
  · rw [hjournal, Array.toList_appendList, journalDigest, Output.absorb_append, houtput]
    exact congrArg (List.foldl Output.link · _) hs.digest_eq

/-- A machine that is continued on a fresh input is accounted for. -/
theorem resume (hs : s.Accounted input) (index : UInt32) (input' : Bytes) :
    (Continuation.live ⟨s.params, s.machine.cpu, s.world.memory, s.machine.output,
      s.journal.toList, index⟩ input').Accounted input' where
  zero_eq := hs.zero_eq
  len_eq := hs.len_eq
  len_le := hs.len_le
  digest_eq := hs.digest_eq
  input_eq := rfl
  position := Nat.zero_le _

end Accounted

end Live

/-! ### Reachable machines -/

/-- The machines that a program reaches, with the input of the session that they are in: the initial
one, those behind an instruction, those at the start of a segment, and those that continue a reached
one on a fresh input. -/
inductive Program.Reaches (p : Program) : (input : Bytes) → Live → Prop where
  | start (input : Bytes) : Reaches p input (p.live input)
  | step {input : Bytes} {s t : Live} {outcome : StepOutcome} (h : Reaches p input s)
      (hstep : s.step = (.ok outcome, t)) : Reaches p input t
  | boundary {input : Bytes} {s : Live} (h : Reaches p input s) : Reaches p input s.fresh
  | resume {input : Bytes} {s : Live} (h : Reaches p input s) (index : UInt32) (input' : Bytes) :
      Reaches p input' (Continuation.live ⟨s.params, s.machine.cpu, s.world.memory,
        s.machine.output, s.journal.toList, index⟩ input')

namespace Program.Reaches

variable {p : Program} {input : Bytes} {s t : Live}

/-- Every machine that a program reaches is accounted for. -/
theorem accounted (h : p.Reaches input s) : s.Accounted input := by
  induction h with
  | start input => exact Live.accounted_live p input
  | step _ hstep ih => exact ih.step hstep
  | boundary _ ih =>
    exact ⟨ih.zero_eq, ih.len_eq, ih.len_le, ih.digest_eq, ih.input_eq, ih.position⟩
  | resume _ index input' ih => exact ih.resume index input'

/-- A stretch of a run leads from reached machines to reached ones. -/
theorem stretch {exit : ExitCode} {count : Nat} (h : p.Reaches input s)
    (hstretch : s.Stretch exit count t) : p.Reaches input t := by
  induction hstretch with
  | split s => exact h
  | limit s => exact h
  | fault hstep => exact (Live.step_of_error hstep).2 ▸ h
  | last hstep _ _ => exact h.step hstep
  | next hstep _ ih => exact ih (h.step hstep)

theorem segmentEnd (h : p.Reaches input s) (limits : RunLimits) :
    p.Reaches input (s.segmentEnd limits).live :=
  h.boundary.stretch (Live.stretch_segmentEnd limits s).2

/-- A run from a reached machine ends in a reached machine, and its segments start in such ones. -/
theorem runs {limits : RunLimits} {index : UInt32} {e : Live.RunEnd} (h : p.Reaches input s)
    (hruns : Live.Runs limits index s e) : p.Reaches input e.live ∧
      ∀ segment ∈ e.segments, ∃ start, p.Reaches input start ∧
        segment.trace.startMachine = start.machine ∧
        segment.trace.startMemory = start.world.memory := by
  induction hruns with
  | last _ => exact ⟨h.segmentEnd limits, by simpa using ⟨_, h, rfl, rfl⟩⟩
  | split _ _ ih =>
    obtain ⟨hlive, hsegments⟩ := ih (h.segmentEnd limits)
    exact ⟨hlive, List.forall_mem_cons.mpr ⟨⟨_, h, rfl, rfl⟩, hsegments⟩⟩

end Program.Reaches

/-- The sessions of a program start and end their segments in reached machines. -/
theorem Program.Sessions.reaches {p : Program} {earlier : List Session} {last : Session}
    (h : p.Sessions earlier last) : ∃ input e, last = .ofRun e ∧ p.Reaches input e.live ∧
      ∀ segment ∈ last.segments, ∃ start, p.Reaches input start ∧
        segment.trace.startMachine = start.machine ∧
        segment.trace.startMemory = start.world.memory := by
  induction h with
  | @execute input options x h =>
    obtain ⟨limits, -, rfl⟩ := execute_eq_ok_iff.mp h
    obtain ⟨hlive, hsegments⟩ := (Reaches.start input).runs (Live.runs_run limits 0 _)
    exact ⟨input, _, rfl, hlive, hsegments⟩
  | @resume earlier x y c input options _ hc h ih =>
    obtain ⟨input', e, rfl, hreaches, -⟩ := ih
    obtain ⟨limits, -, rfl⟩ := Continuation.resume_eq_ok_iff.mp h
    obtain ⟨-, rfl⟩ := Session.continuation_ofRun hc
    obtain ⟨hlive, hsegments⟩ :=
      (hreaches.resume e.nextIndex input).runs (Live.runs_run limits e.nextIndex _)
    exact ⟨input, _, rfl, hlive, hsegments⟩

/-! ### A guest that writes -/

namespace WritingGuest

/-- A program that writes two bytes at its third instruction. -/
def program : Program :=
  .make ((((Memory.empty {}).storeWord 0x1000 0x00400893).storeWord 0x1004 0x00200593).storeWord
    0x1008 0x73) minMemory {} ⟨"", [], 0⟩

/-- The machine behind the first instruction. -/
def first : Live := (program.live []).step.2

/-- The machine before the bytes are written. -/
def calling : Live := first.step.2

/-- The machine behind the write. -/
def called : Live := calling.step.2

theorem step_start : (program.live []).step = (.ok .next, first) :=
  Live.step_eq_of_fst (by decide +kernel)

theorem step_first : first.step = (.ok .next, calling) := Live.step_eq_of_fst (by decide +kernel)

theorem step_calling : calling.step = (.ok .next, called) := Live.step_eq_of_fst (by decide +kernel)

theorem reaches_calling : program.Reaches [] calling :=
  ((Program.Reaches.start []).step step_start).step step_first

theorem written_calling : Live.written calling.machine called.machine = [0, 0] := by
  decide +kernel

end WritingGuest

/-- **Reachable machines.** Every machine that a program reaches is accounted for. Behind every
instruction of such a machine, the bytes written are put together without lengths or registers that
do not fit, and no length overflows. Sessions pass through such machines only, and the hash that a
session reports is that of its journal. -/
theorem Program.reaches_accounted (p : Program) :
    (∀ input s, p.Reaches input s → s.Accounted input ∧
      ∀ outcome t, s.step = (.ok outcome, t) →
        s.machine.captured? t.machine = some (Live.written s.machine t.machine) ∧
        t.machine.output = s.machine.output.absorb (Live.written s.machine t.machine) ∧
        t.machine.output.len.toNat =
          s.machine.output.len.toNat + (Live.written s.machine t.machine).length) ∧
    ∀ earlier last, p.Sessions earlier last →
      last.info.outputDigest = journalDigest last.info.journal ∧
      ∃ input e, last = .ofRun e ∧ p.Reaches input e.live ∧
        ∀ segment ∈ last.segments, ∃ start, p.Reaches input start ∧
          segment.trace.startMachine = start.machine ∧
          segment.trace.startMemory = start.world.memory := by
  constructor
  · intro input s hs
    refine ⟨hs.accounted, fun outcome t h => ?_⟩
    have hleaves := Live.leaves_of_step h
    exact ⟨hleaves.captured?_eq, hleaves.output_written⟩
  · intro earlier last h
    obtain ⟨input, e, rfl, hreaches, hsegments⟩ := h.reaches
    exact ⟨hreaches.accounted.digest_eq, input, e, rfl, hreaches, hsegments⟩

open WritingGuest in
/-- The program that writes reaches a machine whose next instruction writes two bytes. -/
theorem Program.reaches_accounted_writing : program.Reaches [] calling ∧
    calling.step = (.ok .next, called) ∧ calling.Accounted [] ∧
    calling.machine.captured? called.machine = some [0, 0] ∧
    called.machine.output.len.toNat = calling.machine.output.len.toNat + 2 := by
  obtain ⟨haccounted, hstep⟩ := (reaches_accounted program).1 [] calling reaches_calling
  obtain ⟨hcaptured, -, hlen⟩ := hstep .next called step_calling
  rw [written_calling] at hcaptured hlen
  rw [show ([0, 0] : Bytes).length = 2 from rfl] at hlen
  exact ⟨reaches_calling, step_calling, haccounted, hcaptured, hlen⟩

end ReplayVM
