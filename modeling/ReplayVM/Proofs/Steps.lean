import Mathlib.Tactic.Common
import ReplayVM.Proofs.Effects
import ReplayVM.Proofs.MemoryContents
import ReplayVM.Witness.Record

/-!
# Steps and runs

What a step does is decided by the word at the program counter: it makes a fault or an effect, and
the effect asks at most one question of the bus. Every statement about a bus therefore has the same
few cases. The plain bus stands for a machine whose host answers with prepared values in order; a
run of such a machine is a sequence of steps that do not fault.

## Main definitions

* `Machine.request`, `Playback.request`: what an instruction asks of the host.
* `Effect.Proper`: the shape of the effects that instructions have.
* `Effect.Follows`: the effects that each instruction has.
* `Scripted`, `Scripted.bus`: memory and the prepared answers of a host behind the bus.
* `Memory.WellFormedFor`: a well-formed memory with the layout of parameters.
* `Playback.follow`, `Steps`: a step, and a run with its outcomes.

## Main results

* `Machine.step_of_plan_ok`, `Machine.step_of_plan_error`: the cases of a step.
* `Instruction.follows_of_effect`: an instruction has no other effects.
* `Machine.exists_follows_of_ok`: a step that does not fault has an effect of its instruction.
* `Machine.proper_of_plan`: the effects of instructions are proper.
* `Steps.wellFormedFor`: a run keeps memory well formed.
-/

namespace ReplayVM

variable {σ : Type}

/-! ### Cases of a step -/

/-- What an effect asks of the host, if it asks for anything. -/
def Effect.asks : Effect → Option HostCall
  | .call request _ => some request
  | _ => none

namespace Machine

/-- What the word at the program counter makes a machine ask of the host, if anything. -/
def request (params : Params) (m : Machine) (word : UInt32) : Option HostCall :=
  match m.plan params word with
  | .ok effect => effect.asks
  | .error _ => none

variable {bus : Bus σ} {params : Params} {m : Machine} {s : σ}

theorem step_of_plan_error {reason : FaultReason} (h : canFetch params m.cpu.pc = true)
    (hp : m.plan params (bus.fetch s m.cpu.pc).1 = .error reason) :
    m.step bus params s = ⟨.error reason, m, (bus.fetch s m.cpu.pc).2⟩ := by
  rw [step_of_canFetch h, hp]

theorem step_of_plan_ok {effect : Effect} (h : canFetch params m.cpu.pc = true)
    (hp : m.plan params (bus.fetch s m.cpu.pc).1 = .ok effect) :
    m.step bus params s = effect.run bus (bus.fetch s m.cpu.pc).2 := by
  rw [step_of_canFetch h, hp]

end Machine

/-- An effect does not fault. -/
theorem Effect.run_result (bus : Bus σ) (s : σ) (effect : Effect) :
    ∃ outcome, (effect.run bus s).result = .ok outcome := by
  cases effect <;> exact ⟨_, rfl⟩

/-- A step that faults leaves the machine, and the bus as it is before or behind the fetch. -/
theorem Machine.step_of_error {bus : Bus σ} {params : Params} {m : Machine} {s : σ}
    {reason : FaultReason} (h : (m.step bus params s).result = .error reason) :
    m.step bus params s = ⟨.error reason, m, s⟩ ∨
      m.step bus params s = ⟨.error reason, m, (bus.fetch s m.cpu.pc).2⟩ := by
  cases hf : canFetch params m.cpu.pc with
  | false =>
    rw [step_of_not_canFetch hf] at h ⊢
    obtain rfl := Except.error.inj h
    exact .inl rfl
  | true =>
    cases hp : m.plan params (bus.fetch s m.cpu.pc).1 with
    | error reason' =>
      rw [step_of_plan_error hf hp] at h ⊢
      obtain rfl := Except.error.inj h
      exact .inr rfl
    | ok effect =>
      obtain ⟨outcome, ho⟩ := effect.run_result bus (bus.fetch s m.cpu.pc).2
      rw [step_of_plan_ok hf hp, ho] at h
      simp at h

/-! ### Effects -/

section

/-- The effects that instructions have on a machine: accesses go to the word around a valid address,
and the journal grows by some low bytes of a register or stays as it is. -/
inductive Effect.Proper (params : Params) (m : Machine) : Effect → Prop where
  | finish {outcome : StepOutcome} {next : Machine} (houtput : next.output = m.output) :
      Proper params m (.finish outcome next)
  | write {count : Nat} {next : Machine} (hcount : count ≤ 4)
      (hlen : m.output.len.toNat + count ≤ maxOutputLen)
      (houtput : next.output = m.output.absorb ((Bytes.ofWord (m.cpu.reg .a0)).take count)) :
      Proper params m (.finish .next next)
  | load {data : UInt32} {next : UInt32 → Machine} (hvalid : params.isValidAddr data = true)
      (houtput : ∀ word, (next word).output = m.output) :
      Proper params m (.load (alignDown data) next)
  | store {data : UInt32} {merge : UInt32 → UInt32} {next : Machine}
      (hvalid : params.isValidAddr data = true) (houtput : next.output = m.output) :
      Proper params m (.store (alignDown data) merge next)
  | call {request : HostCall} {next : HostReply → Machine}
      (houtput : ∀ reply, (next reply).output = m.output) :
      Proper params m (.call request next)

theorem isValidAddr_of_checkAccess {params : Params} {addr width : UInt32}
    (h : checkAccess params addr width = .ok ()) : params.isValidAddr addr = true := by
  unfold checkAccess at h
  split at h
  · simp at h
  · split at h
    · simp at h
    · rename_i hvalid
      simpa using hvalid

variable {params : Params} {m : Machine} {inst : Instruction} {effect : Effect}

/-- The number by which the guest asks for a call of the host. -/
def HostCall.number : HostCall → UInt32
  | .read => 3
  | .inputLen => 5

namespace Instruction

/-- Whether an instruction computes a value for a register from registers, immediate and program
counter alone. -/
def computes : Instruction → Bool
  | .upper .. | .jal .. | .jalr .. | .immediate .. | .register .. => true
  | .branch .. | .load .. | .store .. | .fence | .ecall | .ebreak => false

/-- Whether an instruction moves the program counter and does nothing else. -/
def moves : Instruction → Bool
  | .branch .. | .fence => true
  | .upper .. | .jal .. | .jalr .. | .load .. | .store .. | .immediate .. | .register .. | .ecall
  | .ebreak => false

end Instruction

/-- The effects of an instruction on a machine. -/
inductive Effect.Follows (params : Params) (m : Machine) : Instruction → Effect → Prop where
  | compute {inst : Instruction} (hinst : inst.computes = true) (value pc : UInt32) :
      Follows params m inst (.finish .next ((m.setReg inst.rd value).jump pc))
  | move {inst : Instruction} (hinst : inst.moves = true) (pc : UInt32) :
      Follows params m inst (.finish .next (m.jump pc))
  | load {kind : LoadKind} {rd rs1 : Reg} {imm : Int32}
      (haccess : checkAccess params (m.cpu.reg rs1 + imm.toUInt32) kind.width = .ok ()) :
      Follows params m (.load kind rd rs1 imm)
        (.load (alignDown (m.cpu.reg rs1 + imm.toUInt32)) fun word =>
          (m.setReg rd (kind.extract (m.cpu.reg rs1 + imm.toUInt32) word)).advance)
  | store {kind : StoreKind} {rs1 rs2 : Reg} {imm : Int32}
      (haccess : checkAccess params (m.cpu.reg rs1 + imm.toUInt32) kind.width = .ok ()) :
      Follows params m (.store kind rs1 rs2 imm)
        (.store (alignDown (m.cpu.reg rs1 + imm.toUInt32))
          (kind.merge (m.cpu.reg rs1 + imm.toUInt32) (m.cpu.reg rs2)) m.advance)
  | halt (hcall : m.cpu.reg .a7 = 0) :
      Follows params m .ecall (.finish (.halted (m.cpu.reg .a0)) m.advance)
  | pause (hcall : m.cpu.reg .a7 = 1) :
      Follows params m .ecall (.finish (.paused (m.cpu.reg .a0)) m.advance)
  | yield (hcall : m.cpu.reg .a7 = 2) : Follows params m .ecall (.finish .yielded m.advance)
  | write (hcall : m.cpu.reg .a7 = 4) (hcount : m.cpu.reg .a1 ≤ 4)
      (hroom : m.output.len.toNat + (m.cpu.reg .a1).toNat ≤ maxOutputLen) :
      Follows params m .ecall (.finish .next { m with
        output := m.output.absorb ((Bytes.ofWord (m.cpu.reg .a0)).take (m.cpu.reg .a1).toNat)
        }.advance)
  | call {request : HostCall} (hcall : m.cpu.reg .a7 = request.number) :
      Follows params m .ecall (.call request fun reply => { m with
        cpu := (m.cpu.overwrite .a0 reply.a0).overwrite .a1 reply.a1 }.advance)

/-- A system call has one of the effects of its instruction. -/
theorem Machine.follows_of_callEffect (h : m.callEffect = .ok effect) :
    effect.Follows params m .ecall := by
  unfold callEffect at h
  simp only at h
  split at h
  · rename_i hcall
    exact Except.ok.inj h ▸ .halt hcall
  · rename_i hcall
    exact Except.ok.inj h ▸ .pause hcall
  · rename_i hcall
    exact Except.ok.inj h ▸ .yield hcall
  · rename_i hcall
    rw [← Except.ok.inj h]
    exact .call hcall
  · split at h
    · simp at h
    · rename_i hcall hcount
      split at h
      · simp at h
      · rename_i hroom
        exact Except.ok.inj h ▸ .write hcall (UInt32.not_lt.mp hcount) (Nat.le_of_not_lt hroom)
  · rename_i hcall
    rw [← Except.ok.inj h]
    exact .call hcall
  · simp at h

/-- An instruction has no other effects. -/
theorem Instruction.follows_of_effect (h : inst.effect params m = .ok effect) :
    effect.Follows params m inst := by
  cases inst with
  | upper op rd imm => cases op <;> exact Except.ok.inj h ▸ .compute rfl _ _
  | jal rd imm => exact Except.ok.inj h ▸ .compute rfl _ _
  | jalr rd rs1 imm => exact Except.ok.inj h ▸ .compute rfl _ _
  | branch condition rs1 rs2 imm =>
    rw [Instruction.effect] at h
    split at h
    · exact Except.ok.inj h ▸ .move rfl _
    · exact Except.ok.inj h ▸ .move rfl _
  | load kind rd rs1 imm =>
    cases hc : checkAccess params (m.cpu.reg rs1 + imm.toUInt32) kind.width with
    | error reason => simp [Instruction.effect, hc, bind, Except.bind] at h
    | ok _ =>
      simp only [Instruction.effect, hc, bind, Except.bind, pure, Except.pure, Except.ok.injEq] at h
      exact h ▸ .load hc
  | store kind rs1 rs2 imm =>
    cases hc : checkAccess params (m.cpu.reg rs1 + imm.toUInt32) kind.width with
    | error reason => simp [Instruction.effect, hc, bind, Except.bind] at h
    | ok _ =>
      simp only [Instruction.effect, hc, bind, Except.bind, pure, Except.pure, Except.ok.injEq] at h
      exact h ▸ .store hc
  | immediate op rd rs1 imm => exact Except.ok.inj h ▸ .compute rfl _ _
  | register op rd rs1 rs2 => exact Except.ok.inj h ▸ .compute rfl _ _
  | fence => exact Except.ok.inj h ▸ .move rfl _
  | ecall => exact Machine.follows_of_callEffect h
  | ebreak => simp [Instruction.effect] at h

/-- What is planned for a word is an effect of the instruction that it encodes. -/
theorem Machine.follows_of_plan {word : UInt32} (h : m.plan params word = .ok effect) :
    ∃ inst, Instruction.decode word = some inst ∧ effect.Follows params m inst := by
  unfold plan at h
  split at h
  · simp at h
  · rename_i inst hinst
    exact ⟨inst, hinst, Instruction.follows_of_effect h⟩

/-- A step that does not fault has an effect of the instruction that it fetches. -/
theorem Machine.exists_follows_of_ok {bus : Bus σ} {s : σ} {outcome : StepOutcome}
    (h : (m.step bus params s).result = .ok outcome) :
    canFetch params m.cpu.pc = true ∧
    ∃ (inst : Instruction) (effect : Effect),
      Instruction.decode (bus.fetch s m.cpu.pc).1 = some inst ∧ effect.Follows params m inst ∧
      m.step bus params s = effect.run bus (bus.fetch s m.cpu.pc).2 := by
  cases hf : canFetch params m.cpu.pc with
  | false =>
    rw [step_of_not_canFetch hf] at h
    simp at h
  | true =>
    cases hp : m.plan params (bus.fetch s m.cpu.pc).1 with
    | error reason =>
      rw [step_of_plan_error hf hp] at h
      simp at h
    | ok effect =>
      obtain ⟨inst, hinst, hfollows⟩ := follows_of_plan hp
      exact ⟨rfl, inst, effect, hinst, hfollows, step_of_plan_ok hf hp⟩

/-- The effects of instructions are proper. -/
theorem Effect.Follows.proper (h : effect.Follows params m inst) : effect.Proper params m := by
  cases h with
  | compute | move | halt | pause | yield => exact .finish rfl
  | load haccess => exact .load (isValidAddr_of_checkAccess haccess) fun _ => rfl
  | store haccess => exact .store (isValidAddr_of_checkAccess haccess) rfl
  | write _ hcount hroom => exact .write (UInt32.le_iff_toNat_le.mp hcount) hroom rfl
  | call => exact .call fun _ => rfl

/-- The effects that are planned are proper. -/
theorem Machine.proper_of_plan {word : UInt32} (h : m.plan params word = .ok effect) :
    effect.Proper params m := by
  obtain ⟨inst, -, hfollows⟩ := follows_of_plan h
  exact hfollows.proper

end

/-! ### Addresses -/

/-- A mask of the upper bits takes the lower ones away. -/
theorem toNat_and_highBits {mask : UInt32} {k : Nat} (h : mask.toBitVec = BitVec.allOnes 32 <<< k)
    (w : UInt32) : (w &&& mask).toNat = w.toNat >>> k <<< k := by
  have hlt : w.toNat >>> k <<< k < 2 ^ 32 := by
    rw [Nat.shiftLeft_eq, Nat.shiftRight_eq_div_pow]
    exact Nat.lt_of_le_of_lt (Nat.div_mul_le_self _ _) w.toNat_lt
  rw [← UInt32.toNat_toBitVec, UInt32.toBitVec_and, h, ← BitVec.shiftLeft_ushiftRight,
    BitVec.toNat_shiftLeft, BitVec.toNat_ushiftRight, UInt32.toNat_toBitVec, Nat.mod_eq_of_lt hlt]

theorem toNat_alignDown (addr : UInt32) : (alignDown addr).toNat = addr.toNat / 4 * 4 :=
  (toNat_and_highBits (k := 2) (by decide) addr).trans (by omega)

/-- Instructions are fetched from word addresses that can be accessed. -/
theorem Machine.alignDown_of_canFetch {params : Params} {pc : UInt32}
    (h : canFetch params pc = true) : alignDown pc = pc ∧ params.isValidAddr pc = true := by
  simp only [canFetch, Bool.and_eq_true, decide_eq_true_eq] at h
  have halign : pc.toNat % 4 = 0 := by
    have := congrArg UInt32.toNat h.1
    rwa [UInt32.toNat_mod] at this
  refine ⟨UInt32.toNat_inj.mp ?_, h.2⟩
  rw [toNat_alignDown]
  omega

namespace Memory

variable {mem : Memory} {params : Params}

/-- The address space of a memory ends where the parameters say. -/
theorem Fits.toNat_maxMemory (hm : mem.Fits) (hl : mem.HasLayout params) :
    params.maxMemory.toNat = 1 <<< mem.memoryBits.toNat := by
  have hle := hm.memoryBits_le
  have hsize : 1 <<< mem.memoryBits.toNat ≤ 1073741824 := hm.size_le
  rw [hl.memoryBits_eq] at hle hsize ⊢
  have hbits : params.memoryBits.toNat % 32 = params.memoryBits.toNat := Nat.mod_eq_of_lt (by omega)
  rw [Params.maxMemory, UInt32.toNat_shiftLeft, hbits]
  exact Nat.mod_eq_of_lt (Nat.lt_of_le_of_lt hsize (by decide))

/-- An address that an access may have lies in a word of the address space. -/
theorem Fits.isWordAddr_of_isValidAddr (hm : mem.Fits) (hl : mem.HasLayout params) {addr : UInt32}
    (h : params.isValidAddr addr = true) : mem.IsWordAddr (alignDown addr) := by
  simp only [Params.isValidAddr, Bool.and_eq_true, decide_eq_true_eq] at h
  have hlt := UInt32.lt_iff_toNat_lt.mp h.2
  rw [hm.toNat_maxMemory hl] at hlt
  refine ⟨?_, ?_⟩
  · rw [toNat_alignDown]
    omega
  · rw [toNat_alignDown]
    omega

/-- Instructions are fetched from word addresses. -/
theorem Fits.isWordAddr_of_canFetch (hm : mem.Fits) (hl : mem.HasLayout params) {pc : UInt32}
    (h : Machine.canFetch params pc = true) : mem.IsWordAddr pc := by
  obtain ⟨halign, hvalid⟩ := Machine.alignDown_of_canFetch h
  exact halign ▸ hm.isWordAddr_of_isValidAddr hl hvalid

end Memory

/-! ### The plain bus -/

/-- A memory, and the answers that a host has prepared. -/
structure Scripted where
  memory : Memory
  replies : List HostReply

namespace Scripted

/-- The plain bus: every word comes from memory, every answer is the next prepared one. -/
def bus : Bus Scripted where
  fetch := fun s pc => (s.memory.loadWord pc, s)
  load := fun s addr => (s.memory.loadWord addr, s)
  store := fun s addr value => { s with memory := s.memory.storeWord addr value }
  call := fun s _ => (s.replies.headD {}, { s with replies := s.replies.tail })

end Scripted

/-- A memory that is well formed and laid out as parameters say. -/
structure Memory.WellFormedFor (m : Memory) (params : Params) : Prop
    extends m.WellFormed, m.HasLayout params

theorem Memory.WellFormedFor.storeWord {m : Memory} {params : Params} (h : m.WellFormedFor params)
    {addr : UInt32} (ha : m.IsWordAddr addr) (value : UInt32) :
    (m.storeWord addr value).WellFormedFor params where
  toWellFormed := h.toWellFormed.storeWord ha value
  pageSize_eq := h.pageSize_eq
  memoryBits_eq := h.memoryBits_eq

namespace Playback

variable {params : Params} {p q : Playback}

/-- What stands behind the plain bus of a machine. -/
def scripted (p : Playback) : Scripted := ⟨p.memory, p.replies⟩

/-- One step of a machine behind the plain bus. -/
def follow (params : Params) (p : Playback) : Except FaultReason StepOutcome × Playback :=
  let r := p.machine.step Scripted.bus params p.scripted
  (r.result, ⟨r.machine, r.bus.memory, r.bus.replies⟩)

/-- What the next instruction asks of the host, if it asks for anything. -/
def request (params : Params) (p : Playback) : Option HostCall :=
  if Machine.canFetch params p.machine.cpu.pc then
    p.machine.request params (p.memory.loadWord p.machine.cpu.pc)
  else none

theorem follow_of_not_canFetch (hf : Machine.canFetch params p.machine.cpu.pc = false) :
    p.follow params = (.error (.instructionFault p.machine.cpu.pc), p) := by
  rw [follow, Machine.step_of_not_canFetch hf]
  rfl

theorem follow_of_plan_error {reason : FaultReason}
    (hf : Machine.canFetch params p.machine.cpu.pc = true)
    (hp : p.machine.plan params (p.memory.loadWord p.machine.cpu.pc) = .error reason) :
    p.follow params = (.error reason, p) := by
  rw [follow, Machine.step_of_plan_error hf hp]
  rfl

theorem follow_of_plan_ok {effect : Effect}
    (hf : Machine.canFetch params p.machine.cpu.pc = true)
    (hp : p.machine.plan params (p.memory.loadWord p.machine.cpu.pc) = .ok effect) :
    p.follow params =
      let r := effect.run Scripted.bus p.scripted
      (r.result, ⟨r.machine, r.bus.memory, r.bus.replies⟩) := by
  rw [follow, Machine.step_of_plan_ok hf hp]
  rfl

/-- A step that does not fault is the effect that the word at the program counter makes. -/
theorem follow_of_ok {outcome : StepOutcome} (h : p.follow params = (.ok outcome, q)) :
    Machine.canFetch params p.machine.cpu.pc = true ∧
    ∃ effect, p.machine.plan params (p.memory.loadWord p.machine.cpu.pc) = .ok effect ∧
      effect.run Scripted.bus p.scripted = ⟨.ok outcome, q.machine, q.scripted⟩ := by
  cases hf : Machine.canFetch params p.machine.cpu.pc with
  | false =>
    rw [follow_of_not_canFetch hf] at h
    simp at h
  | true =>
    cases hp : p.machine.plan params (p.memory.loadWord p.machine.cpu.pc) with
    | error reason =>
      rw [follow_of_plan_error hf hp] at h
      simp at h
    | ok effect =>
      rw [follow_of_plan_ok hf hp, Prod.mk.injEq] at h
      obtain ⟨hresult, rfl⟩ := h
      exact ⟨rfl, effect, rfl, by rw [← hresult]; rfl⟩

/-- A step that faults leaves everything as it was. -/
theorem follow_of_error {reason : FaultReason} (h : (p.follow params).1 = .error reason) :
    (p.follow params).2 = p := by
  cases hf : Machine.canFetch params p.machine.cpu.pc with
  | false => rw [follow_of_not_canFetch hf]
  | true =>
    cases hp : p.machine.plan params (p.memory.loadWord p.machine.cpu.pc) with
    | error reason' => rw [follow_of_plan_error hf hp]
    | ok effect =>
      obtain ⟨outcome, ho⟩ := effect.run_result Scripted.bus p.scripted
      rw [follow_of_plan_ok hf hp] at h
      simp [ho] at h

/-- A step keeps memory well formed. -/
theorem wellFormedFor_follow (h : p.memory.WellFormedFor params) :
    (p.follow params).2.memory.WellFormedFor params := by
  cases hr : (p.follow params).1 with
  | error reason => rwa [follow_of_error hr]
  | ok outcome =>
    obtain ⟨-, effect, hp, he⟩ := follow_of_ok (q := (p.follow params).2) (Prod.ext hr rfl)
    have hbus := congrArg (fun r => r.bus.memory) he
    change (effect.run Scripted.bus p.scripted).bus.memory = (p.follow params).2.memory at hbus
    rw [← hbus]
    cases Machine.proper_of_plan hp with
    | finish _ | write _ _ _ | load _ _ | call _ => exact h
    | store hvalid _ =>
      exact h.storeWord (h.toFits.isWordAddr_of_isValidAddr h.toHasLayout hvalid) _

end Playback

/-! ### Runs -/

/-- A run of a machine behind the plain bus: steps that do not fault, with their outcomes. -/
inductive Steps (params : Params) : Playback → List StepOutcome → Playback → Prop where
  | done (p : Playback) : Steps params p [] p
  | step {p q r : Playback} {outcome : StepOutcome} {outcomes : List StepOutcome}
      (h : p.follow params = (.ok outcome, q)) (rest : Steps params q outcomes r) :
      Steps params p (outcome :: outcomes) r

namespace Steps

variable {params : Params} {p q r : Playback} {outcomes outcomes' : List StepOutcome}

theorem append (h : Steps params p outcomes q) (h' : Steps params q outcomes' r) :
    Steps params p (outcomes ++ outcomes') r := by
  induction h with
  | done p => exact h'
  | step hstep _ ih => exact .step hstep (ih h')

/-- A run keeps memory well formed. -/
theorem wellFormedFor (h : Steps params p outcomes q) (hp : p.memory.WellFormedFor params) :
    q.memory.WellFormedFor params := by
  induction h with
  | done p => exact hp
  | @step p q r outcome outcomes hstep _ ih =>
    have hq : (p.follow params).2 = q := congrArg Prod.snd hstep
    exact ih (hq ▸ Playback.wellFormedFor_follow hp)

end Steps

end ReplayVM
