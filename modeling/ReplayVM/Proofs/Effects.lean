import ReplayVM.Step.Basic

/-!
# Effects of instructions

An instruction changes the machine and asks the bus in place. It makes all its checks before, so
that once it has read its registers there is a fault, with nothing changed, or at most one question
to the bus: the word that it loads, the word that it stores into, or the answer of the host. Its
effect is that question together with the machine that follows from the answer.

## Main definitions

* `Effect`, `Effect.run`: effects, and carrying them out.
* `Machine.callEffect`, `Instruction.effect`: the effect of an instruction on a machine, or its
  fault.
* `Exec.act`: what work leads to from a machine and a bus.
* `Machine.plan`: the effect that a word makes, or its fault.

## Main results

* `Exec.act_perform`: an instruction has its effect, or its fault on the machine and the bus as they
  were.
* `Machine.step_of_canFetch`, `Machine.step_of_not_canFetch`: the same for a whole step.
-/

namespace ReplayVM

/-- What an instruction asks of the bus, and what it leaves. -/
inductive Effect where
  /-- Nothing is asked. -/
  | finish (outcome : StepOutcome) (machine : Machine)
  /-- The word at an address is read. -/
  | load (addr : UInt32) (machine : UInt32 → Machine)
  /-- The word at an address is read and replaced. -/
  | store (addr : UInt32) (merge : UInt32 → UInt32) (machine : Machine)
  /-- The host is asked. -/
  | call (request : HostCall) (machine : HostReply → Machine)

variable {σ : Type}

/-- Carries out an effect. -/
def Effect.run (bus : Bus σ) (s : σ) : Effect → StepResult σ
  | .finish outcome machine => ⟨.ok outcome, machine, s⟩
  | .load addr machine =>
    let (word, s) := bus.load s addr
    ⟨.ok .next, machine word, s⟩
  | .store addr merge machine =>
    let (word, s) := bus.load s addr
    ⟨.ok .next, machine, bus.store s addr (merge word)⟩
  | .call request machine =>
    let (reply, s) := bus.call s request
    ⟨.ok .next, machine reply, s⟩

/-- The effect of a system call, or its fault. -/
def Machine.callEffect (m : Machine) : Except FaultReason Effect :=
  let a0 := m.cpu.reg .a0
  let a1 := m.cpu.reg .a1
  let ask (request : HostCall) : Effect := .call request fun reply =>
    let cpu := (m.cpu.overwrite .a0 reply.a0).overwrite .a1 reply.a1
    { m with cpu := cpu }.advance
  match m.cpu.reg .a7 with
  | 0 => .ok (.finish (.halted a0) m.advance)
  | 1 => .ok (.finish (.paused a0) m.advance)
  | 2 => .ok (.finish .yielded m.advance)
  | 3 => .ok (ask .read)
  | 4 =>
    if a1 > 4 then .error (.invalidSyscallArgs 4)
    else if m.output.len.toNat + a1.toNat > maxOutputLen then .error .outputLimitExceeded
    else
      let output := m.output.absorb ((Bytes.ofWord a0).take a1.toNat)
      .ok (.finish .next { m with output := output }.advance)
  | 5 => .ok (ask .inputLen)
  | id => .error (.unknownSyscall id)

/-- The effect of an instruction at the program counter of a machine, or its fault. -/
def Instruction.effect (params : Params) (m : Machine) :
    Instruction → Except FaultReason Effect
  | .upper .lui rd imm => .ok (.finish .next (m.setReg rd imm.toUInt32).advance)
  | .upper .auipc rd imm =>
    .ok (.finish .next (m.setReg rd (m.cpu.pc + imm.toUInt32)).advance)
  | .jal rd imm =>
    .ok (.finish .next ((m.setReg rd (m.cpu.pc + 4)).jump (m.cpu.pc + imm.toUInt32)))
  | .jalr rd rs1 imm =>
    let target := (m.cpu.reg rs1 + imm.toUInt32) &&& ~~~1
    .ok (.finish .next ((m.setReg rd (m.cpu.pc + 4)).jump target))
  | .branch condition rs1 rs2 imm =>
    if condition.holds (m.cpu.reg rs1) (m.cpu.reg rs2) then
      .ok (.finish .next (m.jump (m.cpu.pc + imm.toUInt32)))
    else .ok (.finish .next m.advance)
  | .load kind rd rs1 imm => do
    let addr := m.cpu.reg rs1 + imm.toUInt32
    checkAccess params addr kind.width
    return .load (alignDown addr) fun word => (m.setReg rd (kind.extract addr word)).advance
  | .store kind rs1 rs2 imm => do
    let addr := m.cpu.reg rs1 + imm.toUInt32
    checkAccess params addr kind.width
    return .store (alignDown addr) (kind.merge addr (m.cpu.reg rs2)) m.advance
  | .immediate op rd rs1 imm =>
    .ok (.finish .next (m.setReg rd (op.alu.eval (m.cpu.reg rs1) imm.toUInt32)).advance)
  | .register op rd rs1 rs2 =>
    .ok (.finish .next (m.setReg rd (op.eval (m.cpu.reg rs1) (m.cpu.reg rs2))).advance)
  | .fence => .ok (.finish .next m.advance)
  | .ecall => m.callEffect
  | .ebreak => .error (.breakpoint m.cpu.pc)

/-! ### Work in place -/

namespace Exec

variable {α β : Type} {m : Machine} {s : σ}

/-- What work leads to from a machine and a bus: its result, and what it leaves of both. -/
def act (x : Exec σ α) (m : Machine) (s : σ) : Except FaultReason α × Machine × σ :=
  x.run.run (m, s)

@[simp]
theorem act_pure (a : α) : act (pure a : Exec σ α) m s = (.ok a, m, s) := rfl

@[simp]
theorem act_throw (reason : FaultReason) :
    act (throw reason : Exec σ α) m s = (.error reason, m, s) := rfl

@[simp]
theorem act_machine : act (machine : Exec σ Machine) m s = (.ok m, m, s) := rfl

@[simp]
theorem act_update (f : Machine → Machine) : act (update f : Exec σ Unit) m s = (.ok (), f m, s) :=
  rfl

@[simp]
theorem act_ask (question : σ → α × σ) :
    act (ask question) m s = (.ok (question s).1, m, (question s).2) := rfl

@[simp]
theorem act_liftM (x : Except FaultReason α) : act (liftM x : Exec σ α) m s = (x, m, s) := rfl

/-- A fault ends the work; otherwise it goes on from the machine and the bus as they are left. -/
@[simp]
theorem act_bind (x : Exec σ α) (f : α → Exec σ β) : act (x >>= f) m s =
    match act x m s with
    | (.ok a, m, s) => act (f a) m s
    | (.error reason, m, s) => (.error reason, m, s) := by
  simp only [act, ExceptT.run_bind, StateT.run_bind]
  obtain ⟨_ | _, _, _⟩ := x.run.run (m, s) <;> rfl

@[simp]
theorem act_map (f : α → β) (x : Exec σ α) : act (f <$> x) m s =
    match act x m s with
    | (.ok a, m, s) => (.ok (f a), m, s)
    | (.error reason, m, s) => (.error reason, m, s) := by
  rw [map_eq_pure_bind, act_bind]
  rfl

@[simp]
theorem act_ite (p : Prop) [Decidable p] (x y : Exec σ α) :
    act (if p then x else y) m s = if p then act x m s else act y m s := by
  split <;> rfl

/-- What a planned effect leads to: a fault leaves the machine and the bus. -/
def carry (bus : Bus σ) (m : Machine) (s : σ) :
    Except FaultReason Effect → Except FaultReason StepOutcome × Machine × σ
  | .error reason => (.error reason, m, s)
  | .ok effect => ((effect.run bus s).result, (effect.run bus s).machine, (effect.run bus s).bus)

/-- Fetching faults on the address, on the word, or not at all, and changes nothing but the bus. -/
theorem act_fetchInstruction (bus : Bus σ) (params : Params) (m : Machine) (s : σ) :
    act (fetchInstruction bus params) m s =
      if Machine.canFetch params m.cpu.pc then
        match Instruction.decode (bus.fetch s m.cpu.pc).1 with
        | none => (.error (.illegalInstruction m.cpu.pc (bus.fetch s m.cpu.pc).1), m,
            (bus.fetch s m.cpu.pc).2)
        | some inst => (.ok inst, m, (bus.fetch s m.cpu.pc).2)
      else (.error (.instructionFault m.cpu.pc), m, s) := by
  simp only [fetchInstruction, act_bind, act_machine, act_ite]
  cases Machine.canFetch params m.cpu.pc with
  | false => rfl
  | true =>
    simp only [Bool.not_true, Bool.false_eq_true, if_false, if_true, fetch, act_ask]
    cases Instruction.decode (bus.fetch s m.cpu.pc).1 <;> rfl

/-- Writing a register does not move the program counter. -/
theorem advance_setReg (m : Machine) (r : Reg) (value : UInt32) :
    (m.setReg r value).jump (m.cpu.pc + 4) = (m.setReg r value).advance := by
  simp only [Machine.advance, Machine.setReg, Cpu.setReg]
  split <;> rfl

/-- A system call has its effect, and moves the program counter unless it faults. -/
theorem act_syscall (bus : Bus σ) (m : Machine) (s : σ) :
    act (do let outcome ← syscall bus; jump (m.cpu.pc + 4); return outcome) m s =
      carry bus m s m.callEffect := by
  simp only [Machine.callEffect]
  split <;> rename_i hcall
  case h_5 =>
    -- the arguments are checked before anything is absorbed
    simp only [syscall, hcall, act_bind, act_machine, act_ite]
    by_cases hcount : m.cpu.reg .a1 > 4
    · simp only [if_pos hcount]
      rfl
    by_cases hroom : m.output.len.toNat + (m.cpu.reg .a1).toNat > maxOutputLen
    · simp only [if_neg hcount, if_pos hroom]
      rfl
    · simp only [if_neg hcount, if_neg hroom]
      rfl
  all_goals
    simp only [syscall, hcall, act_bind, act_machine]
    rfl

/-- **An instruction has its effect**, or its fault on the machine and the bus as they were. -/
theorem act_perform (bus : Bus σ) (params : Params) (m : Machine) (s : σ) (inst : Instruction) :
    act (inst.perform bus params) m s = carry bus m s (inst.effect params m) := by
  cases inst with
  | upper op rd imm =>
    cases op <;> (simp only [Instruction.effect, ← advance_setReg]; rfl)
  | immediate | register =>
    simp only [Instruction.effect, ← advance_setReg]
    rfl
  | jal | jalr | fence | ebreak => rfl
  | branch condition rs1 rs2 imm =>
    simp only [Instruction.perform, Instruction.effect, act_bind, act_machine]
    cases condition.holds (m.cpu.reg rs1) (m.cpu.reg rs2) <;> rfl
  | load kind rd rs1 imm =>
    simp only [Instruction.perform, Instruction.effect, ← advance_setReg, act_bind, act_machine,
      act_liftM]
    cases checkAccess params (m.cpu.reg rs1 + imm.toUInt32) kind.width <;> rfl
  | store kind rs1 rs2 imm =>
    simp only [Instruction.perform, Instruction.effect, act_bind, act_machine, act_liftM]
    cases checkAccess params (m.cpu.reg rs1 + imm.toUInt32) kind.width <;> rfl
  | ecall =>
    simp only [Instruction.perform, Instruction.effect, ← act_syscall, act_bind, act_machine]

end Exec

/-! ### Steps -/

namespace Machine

/-- What the word at the program counter makes a machine do: an effect, or a fault. -/
def plan (params : Params) (m : Machine) (word : UInt32) : Except FaultReason Effect :=
  match Instruction.decode word with
  | none => .error (.illegalInstruction m.cpu.pc word)
  | some inst => inst.effect params m

variable {bus : Bus σ} {params : Params} {m : Machine} {s : σ}

theorem step_eq_act (bus : Bus σ) (params : Params) (m : Machine) (s : σ) :
    m.step bus params s =
      match Exec.act (do (← Exec.fetchInstruction bus params).perform bus params) m s with
      | (result, m, s) => ⟨result, m, s⟩ := rfl

theorem step_of_not_canFetch (h : canFetch params m.cpu.pc = false) :
    m.step bus params s = ⟨.error (.instructionFault m.cpu.pc), m, s⟩ := by
  rw [step_eq_act, Exec.act_bind, Exec.act_fetchInstruction, h]
  rfl

/-- A step behind a fetch is the planned fault or the planned effect. -/
theorem step_of_canFetch (h : canFetch params m.cpu.pc = true) :
    m.step bus params s =
      match m.plan params (bus.fetch s m.cpu.pc).1 with
      | .error reason => ⟨.error reason, m, (bus.fetch s m.cpu.pc).2⟩
      | .ok effect => effect.run bus (bus.fetch s m.cpu.pc).2 := by
  rw [step_eq_act, Exec.act_bind, Exec.act_fetchInstruction, if_pos h, plan]
  cases Instruction.decode (bus.fetch s m.cpu.pc).1 with
  | none => rfl
  | some inst =>
    simp only [Exec.act_perform]
    cases inst.effect params m <;> rfl

end Machine

end ReplayVM
