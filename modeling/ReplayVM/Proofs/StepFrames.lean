import Mathlib.Logic.Function.Basic
import ReplayVM.Proofs.BusDiscipline
import ReplayVM.Proofs.ReachableStates

/-!
# What a step leaves alone

Compilers keep live values in the registers that an instruction is not said to write, and data in
the words that no store addresses. An instruction leaves all of these alone, with one exception: the
host answers a question for the length of the input with two registers, and both are written, while
the calling convention names only the first.

## Main definitions

* `Instruction.writes`: the registers that an instruction is said to write.
* `Instruction.storedWord`: the word that an instruction is said to store.
* `Bus.HasMemory`: a bus with a memory behind it.
* `Machine.Framed`: what an instruction leaves of registers and journal.

## Main results

* `World.hasMemory`: there is a memory behind the bus of a running machine.
* `Machine.step_framed`: every step leaves what it is not said to write, but for `a1` where the
  guest asks for the length of its input.
-/

namespace ReplayVM

/-! ### What an instruction is said to write -/

namespace Instruction

/-- The registers that an instruction is said to write: its destination by the instruction set, and
the results of a system call by the calling convention. -/
def writes (inst : Instruction) (cpu : Cpu) : List Reg :=
  match inst with
  | .ecall =>
    if cpu.reg .a7 = HostCall.read.number then [.a0, .a1]
    else if cpu.reg .a7 = HostCall.inputLen.number then [.a0]
    else []
  | inst => if inst.rd = .zero then [] else [inst.rd]

/-- The word that an instruction is said to store, by its address. -/
def storedWord (inst : Instruction) (cpu : Cpu) : Option UInt32 :=
  if inst.isStore then (inst.dataAddress cpu).map alignDown else none

/-- Whether an instruction asks the host for the length of the input. -/
def AsksInputLen (inst : Instruction) (cpu : Cpu) : Prop :=
  inst = .ecall ∧ cpu.reg .a7 = HostCall.inputLen.number

variable {inst : Instruction}

theorem writes_of_computes (h : inst.computes = true) (cpu : Cpu) :
    inst.writes cpu = if inst.rd = .zero then [] else [inst.rd] := by
  cases inst <;> first | rfl | simp [computes] at h

end Instruction

/-! ### Buses with a memory -/

section

variable {σ : Type} {bus : Bus σ} {params : Params} {holds : σ → (UInt32 → UInt32) → Prop}

/-- A bus with a memory behind it: at the addresses that instructions access, a state that holds
some words answers with them, and a store replaces one of them. -/
structure Bus.HasMemory (params : Params) (bus : Bus σ) (holds : σ → (UInt32 → UInt32) → Prop) :
    Prop where
  fetch : ∀ {s words pc}, holds s words → params.Reaches pc → holds (bus.fetch s pc).2 words
  load_eq : ∀ {s words addr}, holds s words → params.Reaches addr →
    (bus.load s addr).1 = words addr
  load : ∀ {s words addr}, holds s words → params.Reaches addr → holds (bus.load s addr).2 words
  store : ∀ {s words addr} (value), holds s words → params.Reaches addr →
    holds (bus.store s addr value) (Function.update words addr value)
  call : ∀ {s words} (request), holds s words → holds (bus.call s request).2 words

/-- The world of a running machine holds words if its memory is well formed and has them at all word
addresses. -/
structure World.Holds (params : Params) (w : World) (words : UInt32 → UInt32) : Prop where
  wellFormed : w.memory.WellFormedFor params
  loadWord_eq : ∀ addr, w.memory.IsWordAddr addr → w.memory.loadWord addr = words addr

/-- There is a memory behind the bus of a running machine. -/
theorem World.hasMemory (params : Params) : World.bus.HasMemory params (World.Holds params) where
  fetch h _ := h
  load_eq := by
    rintro w words _ h ⟨data, hvalid, rfl⟩
    exact h.loadWord_eq _ (h.wellFormed.toFits.isWordAddr_of_isValidAddr
      h.wellFormed.toHasLayout hvalid)
  load h _ := h
  store := by
    rintro w words _ value h ⟨data, hvalid, rfl⟩
    have haddr := h.wellFormed.toFits.isWordAddr_of_isValidAddr h.wellFormed.toHasLayout hvalid
    refine ⟨h.wellFormed.storeWord haddr value, fun addr ha => ?_⟩
    have ha' : w.memory.IsWordAddr addr := ⟨ha.aligned, ha.inside⟩
    rw [Function.update_apply, ← h.loadWord_eq addr ha']
    exact h.wellFormed.toFits.loadWord_storeWord haddr ha' value
  call _ h := ⟨h.wellFormed, h.loadWord_eq⟩

/-! ### Frames -/

/-- What an instruction leaves of the registers and the journal. -/
structure Machine.Framed (inst : Instruction) (m n : Machine) : Prop where
  reg_eq : ∀ q, q ∉ inst.writes m.cpu → ¬(inst.AsksInputLen m.cpu ∧ q = .a1) →
    n.cpu.reg q = m.cpu.reg q
  output_eq : ¬(inst = .ecall ∧ m.cpu.reg .a7 = writeCall) → n.output = m.output

theorem HostCall.number_inj {request request' : HostCall} (h : request.number = request'.number) :
    request = request' := by
  cases request <;> cases request' <;> first | rfl | exact absurd h (by decide)

namespace Effect.Follows

variable {m : Machine} {s : σ} {inst : Instruction} {effect : Effect}

/-- An effect leaves registers and journal as its instruction does. -/
theorem framed (h : effect.Follows params m inst) :
    m.Framed inst (effect.run bus s).machine := by
  cases h with
  | compute hinst value pc =>
    refine ⟨fun q hq _ => ?_, fun _ => rfl⟩
    rw [Instruction.writes_of_computes hinst] at hq
    exact m.reg_setReg_of_not_mem hq value
  | load => exact ⟨fun q hq _ => m.reg_setReg_of_not_mem hq _, fun _ => rfl⟩
  | move | store | halt | pause | yield => exact ⟨fun _ _ _ => rfl, fun _ => rfl⟩
  | write hcall => exact ⟨fun _ _ _ => rfl, fun hwrite => absurd ⟨rfl, hcall⟩ hwrite⟩
  | @call request hcall =>
    refine ⟨fun q hq hlen => ?_, fun _ => rfl⟩
    -- Only the question for the length writes a register that is not named for it.
    have hne : q ≠ .a0 ∧ q ≠ .a1 := by
      cases request with
      | read => simpa [Instruction.writes, hcall] using hq
      | inputLen =>
        have hq0 : q ≠ .a0 := by simpa [Instruction.writes, hcall, HostCall.number] using hq
        exact ⟨hq0, fun hq1 => hlen ⟨⟨rfl, hcall⟩, hq1⟩⟩
    exact Cpu.reg_answer hne.1 hne.2 _ _

/-- The question for the length of the input writes `a1` as the host answers. -/
theorem reg_a1_of_asksInputLen (h : effect.Follows params m inst) (hask : inst.AsksInputLen m.cpu) :
    (effect.run bus s).machine.cpu.reg .a1 = (bus.call s .inputLen).1.a1 := by
  obtain ⟨rfl, hnumber⟩ := hask
  cases h with
  | compute hinst => simp [Instruction.computes] at hinst
  | move hinst => simp [Instruction.moves] at hinst
  | halt hcall | pause hcall | yield hcall | write hcall =>
    exact absurd (hcall.symm.trans hnumber) (by decide)
  | call hcall =>
    obtain rfl := HostCall.number_inj (hcall.symm.trans hnumber)
    exact Vector.getElem_set_self _

/-- An effect leaves the words that its instruction is not said to store. -/
theorem exists_holds (h : effect.Follows params m inst) (hbus : bus.HasMemory params holds)
    {words : UInt32 → UInt32} (hs : holds s words) :
    ∃ words', holds (effect.run bus s).bus words' ∧
      ∀ addr, inst.storedWord m.cpu ≠ some addr → words' addr = words addr := by
  cases h with
  | compute | move | halt | pause | yield | write => exact ⟨words, hs, fun _ _ => rfl⟩
  | load haccess =>
    exact ⟨words, hbus.load hs ⟨_, isValidAddr_of_checkAccess haccess, rfl⟩, fun _ _ => rfl⟩
  | store haccess =>
    have hreaches : params.Reaches _ := ⟨_, isValidAddr_of_checkAccess haccess, rfl⟩
    refine ⟨_, hbus.store _ (hbus.load hs hreaches) hreaches, fun addr haddr => ?_⟩
    refine Function.update_of_ne ?_ _ _
    rintro rfl
    exact haddr rfl
  | @call request => exact ⟨words, hbus.call request hs, fun _ _ => rfl⟩

end Effect.Follows

/-- **What a step leaves alone.** A step that does not fault leaves the registers that its
instruction is not said to write, but for `a1` where the guest asks for the length of its input:
that register has the second value of the answer. The journal changes in the system call that writes
it, and the memory behind the bus in the word that the instruction is said to store. -/
theorem Machine.step_framed (bus : Bus σ) (params : Params) (m : Machine) (s : σ)
    {outcome : StepOutcome} (h : (m.step bus params s).result = .ok outcome) :
    ∃ inst, Instruction.decode (bus.fetch s m.cpu.pc).1 = some inst ∧
      m.Framed inst (m.step bus params s).machine ∧
      (inst.AsksInputLen m.cpu → (m.step bus params s).machine.cpu.reg .a1 =
        (bus.call (bus.fetch s m.cpu.pc).2 .inputLen).1.a1) ∧
      ((∀ q, q ∉ inst.writes m.cpu →
          (m.step bus params s).machine.cpu.reg q = m.cpu.reg q) ↔
        (inst.AsksInputLen m.cpu →
          (bus.call (bus.fetch s m.cpu.pc).2 .inputLen).1.a1 = m.cpu.reg .a1)) ∧
      ∀ holds words, bus.HasMemory params holds → holds s words →
        ∃ words', holds (m.step bus params s).bus words' ∧
          ∀ addr, inst.storedWord m.cpu ≠ some addr → words' addr = words addr := by
  obtain ⟨hf, inst, effect, hinst, hfollows, hstep⟩ := exists_follows_of_ok h
  rw [hstep]
  have hframed : m.Framed inst (effect.run bus (bus.fetch s m.cpu.pc).2).machine := hfollows.framed
  refine ⟨inst, hinst, hframed, hfollows.reg_a1_of_asksInputLen, ⟨fun hall hask => ?_, ?_⟩, ?_⟩
  · have ha1 : Reg.a1 ∉ inst.writes m.cpu := by
      obtain ⟨rfl, hnumber⟩ := hask
      simp only [Instruction.writes, hnumber]
      decide
    exact (hfollows.reg_a1_of_asksInputLen hask).symm.trans (hall _ ha1)
  · intro hanswer q hq
    by_cases hask : inst.AsksInputLen m.cpu ∧ q = .a1
    · obtain ⟨hask, rfl⟩ := hask
      exact (hfollows.reg_a1_of_asksInputLen hask).trans (hanswer hask)
    · exact hframed.reg_eq q hq hask
  · intro holds words hbus hs
    exact hfollows.exists_holds hbus (hbus.fetch hs (Params.reaches_of_canFetch hf))

end

namespace StoringGuest

/-- The parameters of the guest. -/
def params : Params := { memoryBits := 14 }

/-- A memory with a store of two bytes, and the word that it changes. -/
def memory : Memory :=
  ((Memory.empty params).storeWord 0x1000 0x00b51323).storeWord 0x2004 0x01234567

/-- The memory behind the bus. -/
def world : World := ⟨memory, { bytes := [] }, #[]⟩

theorem holds_world : World.Holds params world memory.loadWord where
  wellFormed :=
    have hempty : (Memory.empty params).WellFormedFor params :=
      ⟨Memory.wellFormed_empty (Params.validate_eq_ok_iff.mpr (by decide)), rfl, rfl⟩
    (hempty.storeWord ⟨rfl, by decide⟩ _).storeWord ⟨rfl, by decide⟩ _
  loadWord_eq _ _ := rfl

end StoringGuest

open StoringGuest in
/-- A store of two bytes leaves all registers, and all words but the one that it addresses. -/
theorem Machine.step_framed_storing :
    (HalfStore.machine.step World.bus params world).result = .ok .next ∧
    (∀ q, (HalfStore.machine.step World.bus params world).machine.cpu.reg q =
      HalfStore.machine.cpu.reg q) ∧
    ∃ words, World.Holds params (HalfStore.machine.step World.bus params world).bus words ∧
      ∀ addr, addr ≠ 0x2004 → words addr = memory.loadWord addr := by
  have hstep : (HalfStore.machine.step World.bus params world).result = .ok .next := by
    decide +kernel
  obtain ⟨inst, hinst, hframed, -, -, hmemory⟩ := Machine.step_framed World.bus params _ _ hstep
  have hdecode : Instruction.decode (World.bus.fetch world HalfStore.machine.cpu.pc).1 =
      some (.store .half .a0 .a1 6) := by decide +kernel
  obtain rfl := Option.some.inj (hdecode.symm.trans hinst)
  obtain ⟨words, hwords, hother⟩ := hmemory _ _ (World.hasMemory params) holds_world
  refine ⟨hstep, fun q => hframed.reg_eq q (by simp [Instruction.writes, Instruction.rd])
    (fun h => by simp [Instruction.AsksInputLen] at h), words, hwords, fun addr haddr => ?_⟩
  refine hother addr fun h => haddr (Option.some.inj (h.symm.trans ?_))
  decide +kernel

namespace AskingGuest

/-- A machine with a value in `a1` that is about to ask for the length of its input. -/
def machine : Machine :=
  ⟨(⟨0x1000, .replicate 32 0⟩ : Cpu).setReg .a1 7 |>.setReg .a7 5, {}⟩

/-- The system call in memory, before three bytes of input. -/
def world : World :=
  ⟨(Memory.empty StoringGuest.params).storeWord 0x1000 0x73, { bytes := [1, 2, 3] }, #[]⟩

end AskingGuest

open AskingGuest in
/-- A guest that asks for the length of its input loses the value in `a1`, which no instruction and
no system call is said to write there. -/
theorem Machine.inputLen_clears_argument :
    StoringGuest.params.validate = .ok () ∧ machine.cpu.reg .zero = 0 ∧
    Instruction.decode (World.bus.fetch world machine.cpu.pc).1 = some .ecall ∧
    (machine.step World.bus StoringGuest.params world).result = .ok .next ∧
    Reg.a1 ∉ Instruction.ecall.writes machine.cpu ∧
    machine.cpu.reg .a1 = 7 ∧
    (machine.step World.bus StoringGuest.params world).machine.cpu.reg .a0 = 3 ∧
    (machine.step World.bus StoringGuest.params world).machine.cpu.reg .a1 = 0 := by
  decide +kernel

end ReplayVM
