import ReplayVM.Isa.Listing
import ReplayVM.Proofs.InstructionWords
import ReplayVM.Proofs.ReachableStates

/-!
# Constants in registers

A straight line of instructions computes values for registers and goes on, so its run is a fold over
the machine, whatever the memory behind the line. A constant is loaded by such a line: a short one
by a single addition to `x0`, any other by its upper twenty bits and an addition of the lower
twelve. The addition reads a sign from the lower twelve bits, for which the upper part makes up;
both parts fit their layouts and wrap around to the constant.

## Main definitions

* `Instruction.goesOn`, `Machine.line`: straight lines of instructions, and what they compute.
* `Memory.HasCode`: words behind one another in memory.
* `IsShortConstant`: the constants that one addition loads.
* `Machine.Loaded`: a machine with a constant in one register, and nothing else changed.

## Main results

* `Steps.of_line`: the run of a straight line.
* `Instruction.loadConstant_cases`: the lines that load constants.
* `Instruction.loadConstant_loads`: every constant is loaded.
-/

namespace ReplayVM

/-! ### Straight lines -/

namespace Instruction

/-- Whether an instruction computes a value for a register and goes on with the next word. -/
def goesOn : Instruction → Bool
  | .upper .. | .immediate .. | .register .. => true
  | .jal .. | .jalr .. | .branch .. | .load .. | .store .. | .fence | .ecall | .ebreak => false

theorem computes_of_goesOn {i : Instruction} (h : i.goesOn = true) : i.computes = true := by
  cases i <;> first | rfl | cases h

end Instruction

namespace Machine

/-- The machine after a straight line of instructions. -/
def line (m : Machine) (is : List Instruction) : Machine := is.foldl (fun m i => m.execute i) m

variable {m : Machine} {i : Instruction} {is : List Instruction}

theorem pc_execute (h : i.goesOn = true) (m : Machine) : (m.execute i).cpu.pc = m.cpu.pc + 4 := by
  have htarget : UInt32.ofInt (i.exactTarget m.cpu) = m.cpu.pc + 4 := by
    rw [link_eq_ofInt]
    cases i <;> first | rfl | cases h
  exact htarget

theorem pc_line (h : ∀ i ∈ is, i.goesOn = true) (m : Machine) :
    (m.line is).cpu.pc = m.cpu.pc + 4 * UInt32.ofNat is.length := by
  induction is generalizing m with
  | nil => exact (UInt32.add_zero _).symm
  | cons i is ih =>
    obtain ⟨hi, his⟩ := List.forall_mem_cons.mp h
    change ((m.execute i).line is).cpu.pc = _
    rw [ih his, pc_execute hi, List.length_cons, UInt32.ofNat_add, UInt32.mul_add,
      UInt32.add_assoc, UInt32.add_comm (4 * _)]
    rfl

theorem output_line (m : Machine) (is : List Instruction) : (m.line is).output = m.output := by
  induction is generalizing m with
  | nil => rfl
  | cons i is ih => exact ih _

/-- A line leaves the registers that none of its instructions has for its destination. -/
theorem reg_line {r : Reg} (h : ∀ i ∈ is, r ∉ if i.rd = Reg.zero then [] else [i.rd])
    (m : Machine) : (m.line is).cpu.reg r = m.cpu.reg r := by
  induction is generalizing m with
  | nil => rfl
  | cons i is ih =>
    obtain ⟨hi, his⟩ := List.forall_mem_cons.mp h
    exact (ih his _).trans (reg_setReg_of_not_mem hi m _)

end Machine

/-- Words behind one another in memory, at addresses from which they can be fetched. -/
def Memory.HasCode (params : Params) (mem : Memory) : UInt32 → List UInt32 → Prop
  | _, [] => True
  | pc, word :: words =>
    Machine.canFetch params pc = true ∧ mem.loadWord pc = word ∧
      mem.HasCode params (pc + 4) words

section

variable {params : Params} {p : Playback} {is : List Instruction}

/-- A machine at an instruction that goes on takes it. -/
theorem Playback.follow_eq_execute {i : Instruction} (hfit : i.Encodable) (hi : i.goesOn = true)
    (hfetch : Machine.canFetch params p.machine.cpu.pc = true)
    (hword : p.memory.loadWord p.machine.cpu.pc = i.encode) :
    p.follow params = (.ok .next, { p with machine := p.machine.execute i }) := by
  have hplan : p.machine.plan params (p.memory.loadWord p.machine.cpu.pc) =
      .ok (.finish .next (p.machine.execute i)) := by
    rw [Machine.plan, hword, hfit.decode_encode]
    exact i.effect_eq_execute (.inl (Instruction.computes_of_goesOn hi)) params p.machine
  rw [follow_of_plan_ok hfetch hplan]
  rfl

/-- A machine at a straight line takes its instructions, one after the other. -/
theorem Steps.of_line (hline : ∀ i ∈ is, i.Encodable ∧ i.goesOn = true)
    (hcode : p.memory.HasCode params p.machine.cpu.pc (is.map Instruction.encode)) :
    Steps params p (List.replicate is.length .next) { p with machine := p.machine.line is } := by
  induction is generalizing p with
  | nil => exact .done p
  | cons i is ih =>
    obtain ⟨⟨hfit, hi⟩, his⟩ := List.forall_mem_cons.mp hline
    obtain ⟨hfetch, hword, hrest⟩ := hcode
    rw [← Machine.pc_execute hi] at hrest
    exact .step (Playback.follow_eq_execute hfit hi hfetch hword)
      (ih (p := { p with machine := p.machine.execute i }) his hrest)

end

/-! ### Parts of a constant -/

/-- A constant that fits the immediate of an addition. -/
def IsShortConstant (value : UInt32) : Prop := -2048 ≤ value.toInt32 ∧ value.toInt32 < 2048

theorem isShortConstant_iff {value : UInt32} :
    IsShortConstant value ↔ ImmediateField.short.Holds value.toInt32.toInt := by
  have hge : (-2048 : Int32).toInt = -2 ^ 11 := by decide
  have hlt : (2048 : Int32).toInt = 2 ^ 11 := by decide
  rw [IsShortConstant, Int32.le_iff_toInt_le, Int32.lt_iff_toInt_lt, hge, hlt]
  exact ⟨fun h => ⟨one_dvd _, h.1, h.2⟩, fun h => ⟨h.ge, h.lt⟩⟩

theorem signedValue_ofInt {z : Int} (hge : -2 ^ 31 ≤ z) (hlt : z < 2 ^ 31) :
    signedValue (UInt32.ofInt z) = z := by
  have hmod := ofInt_eq_iff.mp (rfl : UInt32.ofInt z = _)
  unfold signedValue
  split <;> omega

/-- The lower twelve bits of a constant, read with a sign. -/
theorem toInt_lowPart (value : UInt32) :
    (((value &&& 0xfff) <<< 20).toInt32 >>> 20).toInt = Int.bmod value.toNat (2 ^ 12) := by
  have hlow : (value &&& 0xfff).toNat = value.toNat % 2 ^ 12 :=
    (UInt32.toNat_and value 0xfff).trans (Nat.and_two_pow_sub_one_eq_mod value.toNat 12)
  have hplaced : ((value &&& 0xfff) <<< 20).toNat = value.toNat % 2 ^ 12 * 2 ^ 20 := by
    rw [UInt32.toNat_shiftLeft, hlow]
    change _ <<< 20 % _ = _
    rw [Nat.shiftLeft_eq]
    omega
  have hshift := shiftRight_signed_eq_ofInt ((value &&& 0xfff) <<< 20) 20
  rw [← signedValue_toUInt32]
  refine (congrArg signedValue hshift).trans ?_
  have hbounds := signedValue_bounds ((value &&& 0xfff) <<< 20)
  have htwenty : (20 : UInt32).toNat % 32 = 20 := rfl
  rw [htwenty, signedValue_ofInt (by omega) (by omega), Int.bmod_def, signedValue, hplaced]
  split <;> split <;> omega

/-- Without its lower part a constant has twelve zero bits at its low end. -/
theorem toNat_sub_lowPart {value : UInt32} {low : Int32}
    (hlow : low.toInt = Int.bmod value.toNat (2 ^ 12)) :
    (value - low.toUInt32).toNat % 2 ^ 12 = 0 := by
  have hsub : UInt32.ofInt (value.toNat - low.toInt) = value - low.toUInt32 := by
    rw [ofInt_sub, ofInt_toNat, ofInt_toInt]
  have hmod := ofInt_eq_iff.mp hsub
  rw [hlow, Int.bmod_def] at hmod
  split at hmod <;> omega

namespace Instruction

/-- The lines that load constants: an addition to `x0`, the upper part alone, or the upper part and
an addition of the lower one. -/
theorem loadConstant_cases (rd : Reg) (value : UInt32) :
    (IsShortConstant value ∧
      loadConstant rd value = [.immediate .addi rd .zero value.toInt32]) ∨
    ¬IsShortConstant value ∧ ∃ high : Int32, ImmediateField.upper.Holds high.toInt ∧
      ((high.toUInt32 = value ∧ loadConstant rd value = [.upper .lui rd high]) ∨
        ∃ low : Int32, ImmediateField.short.Holds low.toInt ∧
          high.toUInt32 + low.toUInt32 = value ∧
          loadConstant rd value = [.upper .lui rd high, .immediate .addi rd rd low]) := by
  by_cases hshort : -2048 ≤ value.toInt32 ∧ value.toInt32 < 2048
  · exact .inl ⟨hshort, if_pos hshort⟩
  refine .inr ⟨hshort, ?_⟩
  unfold loadConstant
  simp only
  rw [if_neg hshort]
  generalize hlow : ((value &&& 0xfff) <<< 20).toInt32 >>> 20 = low
  replace hlow : low.toInt = Int.bmod value.toNat (2 ^ 12) := hlow ▸ toInt_lowPart value
  have hmod := toNat_sub_lowPart hlow
  have hhigh : (value - low.toUInt32) &&& 0xfffff000 = value - low.toUInt32 := by
    rw [← UInt32.toNat_inj, toNat_and_highBits (k := 12) (by decide)]
    omega
  rw [hhigh]
  have hfits : ImmediateField.upper.Holds (value - low.toUInt32).toInt32.toInt := by
    rw [toInt_toInt32]
    obtain ⟨hge, hlt⟩ := signedValue_bounds (value - low.toUInt32)
    refine ⟨?_, hge, hlt⟩
    change (2 : Int) ^ 12 ∣ _
    unfold signedValue
    split <;> omega
  refine ⟨_, hfits, ?_⟩
  by_cases hzero : low = 0
  · rw [if_pos hzero, hzero]
    exact .inl ⟨UInt32.sub_zero value, rfl⟩
  · rw [if_neg hzero]
    refine .inr ⟨low, ?_, UInt32.sub_add_cancel value low.toUInt32, rfl⟩
    rw [hlow]
    exact ⟨one_dvd _, Int.le_bmod (by decide), Int.bmod_lt (by decide)⟩

/-- A line that loads a constant goes on, and writes one register only. -/
theorem forall_loadConstant (rd : Reg) (value : UInt32) :
    ∀ i ∈ loadConstant rd value, (i.Encodable ∧ i.goesOn = true) ∧ i.rd = rd := by
  rcases loadConstant_cases rd value with ⟨hshort, hline⟩ | ⟨-, high, hhigh, ⟨-, hline⟩ |
    ⟨low, hlow, -, hline⟩⟩
  · rw [hline]
    exact List.forall_mem_singleton.mpr ⟨⟨isShortConstant_iff.mp hshort, rfl⟩, rfl⟩
  · rw [hline]
    exact List.forall_mem_singleton.mpr ⟨⟨hhigh, rfl⟩, rfl⟩
  · rw [hline]
    exact List.forall_mem_cons.mpr
      ⟨⟨⟨hhigh, rfl⟩, rfl⟩, List.forall_mem_singleton.mpr ⟨⟨hlow, rfl⟩, rfl⟩⟩

theorem length_loadConstant (rd : Reg) (value : UInt32) :
    (loadConstant rd value).length = 1 ∨ (loadConstant rd value).length = 2 := by
  rcases loadConstant_cases rd value with ⟨-, h⟩ | ⟨-, _, -, ⟨-, h⟩ | ⟨_, -, -, h⟩⟩
  · exact .inl (congrArg List.length h)
  · exact .inl (congrArg List.length h)
  · exact .inr (congrArg List.length h)

end Instruction

/-! ### Loaded constants -/

namespace Machine

/-- A machine with a constant in one register, and nothing else changed but the program counter,
which is some words further on. Writes to `x0` are lost. -/
structure Loaded (rd : Reg) (value : UInt32) (words : Nat) (before after : Machine) : Prop where
  reg_eq : rd ≠ .zero → after.cpu.reg rd = value
  other_eq : ∀ r, rd = .zero ∨ r ≠ rd → after.cpu.reg r = before.cpu.reg r
  output_eq : after.output = before.output
  pc_eq : after.cpu.pc = before.cpu.pc + 4 * UInt32.ofNat words

variable {rd : Reg}

theorem reg_execute (h : rd ≠ .zero) {i : Instruction} (hi : i.rd = rd) (m : Machine) :
    (m.execute i).cpu.reg rd = UInt32.ofInt (i.exactValue m.cpu) := by
  subst hi
  change (m.cpu.setReg i.rd _).reg i.rd = _
  rw [Cpu.setReg, if_neg h]
  exact Vector.getElem_set_self _

theorem reg_execute_lui (h : rd ≠ .zero) (m : Machine) (imm : Int32) :
    (m.execute (.upper .lui rd imm)).cpu.reg rd = imm.toUInt32 :=
  (reg_execute h rfl m).trans (ofInt_toInt imm)

theorem reg_execute_addi (h : rd ≠ .zero) (m : Machine) (rs1 : Reg) (imm : Int32) :
    (m.execute (.immediate .addi rd rs1 imm)).cpu.reg rd = m.cpu.reg rs1 + imm.toUInt32 :=
  (reg_execute h rfl m).trans (AluOp.eval_eq_ofInt .add (m.cpu.reg rs1) imm.toUInt32).symm

/-- The line that loads a constant leaves it in its register. -/
theorem reg_line_loadConstant (h : rd ≠ .zero) (m : Machine) (value : UInt32)
    (hzero : IsShortConstant value → m.cpu.reg .zero = 0) :
    (m.line (Instruction.loadConstant rd value)).cpu.reg rd = value := by
  rcases Instruction.loadConstant_cases rd value with
    ⟨hshort, hline⟩ | ⟨-, high, -, ⟨hvalue, hline⟩ | ⟨low, -, hvalue, hline⟩⟩
  · calc (m.line (Instruction.loadConstant rd value)).cpu.reg rd
      _ = m.cpu.reg .zero + value.toInt32.toUInt32 := by rw [hline]; exact reg_execute_addi h m _ _
      _ = value := by rw [hzero hshort, UInt32.zero_add]; rfl
  · calc (m.line (Instruction.loadConstant rd value)).cpu.reg rd
      _ = high.toUInt32 := by rw [hline]; exact reg_execute_lui h m high
      _ = value := hvalue
  · calc (m.line (Instruction.loadConstant rd value)).cpu.reg rd
      _ = (m.execute (.upper .lui rd high)).cpu.reg rd + low.toUInt32 := by
        rw [hline]
        exact reg_execute_addi h _ rd low
      _ = high.toUInt32 + low.toUInt32 := by rw [reg_execute_lui h]
      _ = value := hvalue

theorem loaded_loadConstant (rd : Reg) (value : UInt32) (m : Machine)
    (hzero : rd ≠ .zero → IsShortConstant value → m.cpu.reg .zero = 0) :
    m.Loaded rd value (Instruction.loadConstant rd value).length
      (m.line (Instruction.loadConstant rd value)) where
  reg_eq h := m.reg_line_loadConstant h value (hzero h)
  other_eq r hr := by
    refine reg_line (fun i hi => ?_) m
    rw [(Instruction.forall_loadConstant rd value i hi).2]
    rcases hr with rfl | hr
    · exact List.not_mem_nil
    · split
      · exact List.not_mem_nil
      · exact fun h => hr (List.mem_singleton.mp h)
  output_eq := m.output_line _
  pc_eq := pc_line (fun i hi => (Instruction.forall_loadConstant rd value i hi).1.2) m

end Machine

namespace Instruction

/-- **Every constant is loaded.** Wherever the words of the line that loads a constant lie in
memory, a machine at the first of them runs through the line, which has one or two of them: then the
constant is in the register, and everything else is as it was. Only where one addition to `x0` loads
the constant, `x0` has to be zero. -/
theorem loadConstant_loads (params : Params) (p : Playback) (rd : Reg) (value : UInt32)
    (hcode : p.memory.HasCode params p.machine.cpu.pc ((loadConstant rd value).map encode))
    (hzero : rd ≠ .zero → IsShortConstant value → p.machine.cpu.reg .zero = 0) :
    ((loadConstant rd value).length = 1 ∨ (loadConstant rd value).length = 2) ∧
      ∃ after, Steps params p (List.replicate (loadConstant rd value).length .next)
          { p with machine := after } ∧
        p.machine.Loaded rd value (loadConstant rd value).length after :=
  ⟨length_loadConstant rd value, _,
    Steps.of_line (fun i hi => (forall_loadConstant rd value i hi).1) hcode,
    p.machine.loaded_loadConstant rd value hzero⟩

namespace ConstantGuest

/-- The parameters of the guest. -/
def params : Params := { memoryBits := 14 }

/-- A memory with the line that loads a constant whose lower part is negative, near the end of the
words. -/
def memory : Memory :=
  ((Memory.empty params).storeWord 0x1000 0x80000537).storeWord 0x1004 0xfff50513

/-- A machine at the line. -/
def playback : Playback := ⟨⟨.start 0x1000, {}⟩, memory, []⟩

/-- A machine whose `x0` is one, at the addition that loads one. -/
def spoilt : Playback :=
  ⟨⟨(Cpu.start 0x1000).overwrite .zero 1, {}⟩,
    (Memory.empty params).storeWord 0x1000 0x00100293, []⟩

end ConstantGuest

open ConstantGuest in
/-- The largest positive constant takes two lines: its upper part is rounded up to the sign bit, and
the second line takes one away. -/
theorem loadConstant_loads_wrapping :
    ∃ after, Steps params playback [.next, .next] { playback with machine := after } ∧
      after.cpu.reg .a0 = 0x7fffffff ∧ after.cpu.pc = 0x1008 := by
  have hcode : playback.memory.HasCode params playback.machine.cpu.pc
      ((loadConstant .a0 0x7fffffff).map encode) :=
    ⟨by decide +kernel, by decide +kernel, by decide +kernel, by decide +kernel, trivial⟩
  obtain ⟨-, after, hsteps, hloaded⟩ :=
    loadConstant_loads params playback .a0 0x7fffffff hcode fun _ _ => by decide +kernel
  exact ⟨after, hsteps, hloaded.reg_eq (by decide), hloaded.pc_eq.trans (by decide +kernel)⟩

open ConstantGuest in
/-- Where `x0` is not zero, the line that loads one leaves two. -/
theorem loadConstant_spoilt :
    spoilt.memory.HasCode params spoilt.machine.cpu.pc ((loadConstant 5 1).map encode) ∧
      ∃ p, Steps params spoilt [.next] p ∧ p.machine.cpu.reg 5 = 2 := by
  have hcode : spoilt.memory.HasCode params spoilt.machine.cpu.pc ((loadConstant 5 1).map encode) :=
    ⟨by decide +kernel, by decide +kernel, trivial⟩
  have hsteps := Steps.of_line (fun i hi => (forall_loadConstant 5 1 i hi).1) hcode
  exact ⟨hcode, _, hsteps, by decide +kernel⟩

end Instruction

end ReplayVM
