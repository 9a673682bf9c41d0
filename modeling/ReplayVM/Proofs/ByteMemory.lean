import ReplayVM.Proofs.StepFrames
import ReplayVM.Proofs.WordBytes

/-!
# Memory as a memory of bytes

Behind the bus stand words, and an instruction set has bytes: a load reads one, two or four of them,
a store writes as many, and the others stay. Seen as bytes, the words behind a bus are the memory
that the instruction set has. A machine that executes loads and stores of all widths, however they
overlap, does to it what the same transfers do to bytes, and faults where these do.

## Main definitions

* `ByteMemory`, `ByteMemory.read`, `ByteMemory.write`: memories of bytes.
* `ByteMemory.ofWords`: the bytes of words.
* `Transfer`, `Transfer.onBytes`: loads and stores, and what they do on bytes.
* `Machine.Executes`: a machine that executes transfers on a bus.
* `SeesBytes`: a machine over words that is one over bytes.

## Main results

* `ByteMemory.read_ofWords`, `ByteMemory.ofWords_update_merge`: words read and written as bytes.
* `Machine.seesBytes_step`: one transfer does the same as on bytes.
* `Machine.Executes.bytewise`: so do any number of them.
-/

namespace ReplayVM

/-! ### Memories of bytes -/

/-- The bytes of a memory, by address. -/
abbrev ByteMemory := UInt32 → UInt8

namespace ByteMemory

/-- The bytes of words that lie at their aligned addresses, least significant byte first. -/
def ofWords (words : UInt32 → UInt32) : ByteMemory := fun addr =>
  ((words (alignDown addr) >>> (8 * (addr &&& 3))) &&& 0xff).toUInt8

/-- The bytes from an address on. -/
def read (mem : ByteMemory) (addr : UInt32) (count : Nat) : Bytes :=
  (List.range count).map fun i => mem (addr + i.toUInt32)

/-- Writes bytes from an address on; the other bytes of the memory stay. -/
def write (mem : ByteMemory) (addr : UInt32) (bytes : Bytes) : ByteMemory := fun a =>
  bytes.getD (a - addr).toNat (mem a)

theorem ofWords_eq (words : UInt32 → UInt32) (addr : UInt32) :
    ofWords words addr = wordByte (words (alignDown addr)) (addr.toNat % 4) := by
  have hoffset : 8 * (addr &&& 3) = bitOffset addr := UInt32.mul_comm _ _
  have hmask : (0xff : UInt32).toNat = 2 ^ 8 - 1 := rfl
  refine byte_eq_of_testBit_eq fun i hi => ?_
  rw [testBit_wordByte _ _ hi, ofWords, hoffset, UInt32.toNat_toUInt8, UInt32.toNat_and,
    toNat_shiftRight_bitOffset, Nat.testBit_mod_two_pow, Nat.testBit_and, Nat.testBit_shiftRight,
    hmask, Nat.testBit_two_pow_sub_one, decide_eq_true hi, Bool.true_and, Bool.and_true]

/-- The bytes from an address on, as long as they lie in one word. -/
theorem read_ofWords (words : UInt32 → UInt32) {addr : UInt32} {count : Nat}
    (hplace : addr.toNat % 4 + count ≤ 4) :
    (ofWords words).read addr count =
      (List.range count).map fun i => wordByte (words (alignDown addr)) (addr.toNat % 4 + i) := by
  refine List.map_congr_left fun i hi => ?_
  have hi : i < count := List.mem_range.mp hi
  have haddr := addr.toNat_lt
  have hnat : i.toUInt32.toNat = i := Nat.mod_eq_of_lt (by omega)
  have hsum : (addr + i.toUInt32).toNat = addr.toNat + i := by
    rw [UInt32.toNat_add, hnat]
    omega
  have hword : alignDown (addr + i.toUInt32) = alignDown addr := by
    rw [← UInt32.toNat_inj, toNat_alignDown, toNat_alignDown, hsum]
    omega
  rw [ofWords_eq, hword, hsum]
  congr 1
  omega

/-- The addresses of bytes that lie in one word. -/
theorem toNat_sub_lt_iff {a addr : UInt32} {count : Nat} (hplace : addr.toNat % 4 + count ≤ 4) :
    (a - addr).toNat < count ↔ alignDown a = alignDown addr ∧ addr.toNat % 4 ≤ a.toNat % 4 ∧
      a.toNat % 4 < addr.toNat % 4 + count := by
  have ha := a.toNat_lt
  have haddr := addr.toNat_lt
  rw [← UInt32.toNat_inj, toNat_alignDown, toNat_alignDown, UInt32.toNat_sub]
  omega

theorem toNat_sub_of_le {a addr : UInt32} (hword : alignDown a = alignDown addr)
    (hle : addr.toNat % 4 ≤ a.toNat % 4) :
    (a - addr).toNat = a.toNat % 4 - addr.toNat % 4 := by
  have ha := a.toNat_lt
  have haddr := addr.toNat_lt
  rw [← UInt32.toNat_inj, toNat_alignDown, toNat_alignDown] at hword
  rw [UInt32.toNat_sub]
  omega

theorem write_map_range (mem : ByteMemory) (addr : UInt32) (count : Nat) (byte : Nat → UInt8)
    (a : UInt32) :
    mem.write addr ((List.range count).map byte) a =
      if (a - addr).toNat < count then byte (a - addr).toNat else mem a := by
  rw [write, List.getD_eq_getElem?_getD, List.getElem?_map]
  split
  · rename_i hlt
    rw [List.getElem?_range hlt]
    rfl
  · rename_i hge
    rw [List.getElem?_eq_none (by simpa using hge)]
    rfl

/-- Replacing a word by its merge with a value writes the low bytes of the value. -/
theorem ofWords_update_merge (words : UInt32 → UInt32) {kind : StoreKind} {addr : UInt32}
    (halign : addr.toNat % kind.width.toNat = 0) (hplace : addr.toNat % 4 + kind.width.toNat ≤ 4)
    (value : UInt32) :
    ofWords (Function.update words (alignDown addr)
        (kind.merge addr value (words (alignDown addr)))) =
      (ofWords words).write addr ((Bytes.ofWord value).take kind.width.toNat) := by
  funext a
  rw [Bytes.ofWord_eq_map, ← List.map_take, List.take_range, Nat.min_eq_left (by omega),
    write_map_range, ofWords_eq, ofWords_eq]
  by_cases hword : alignDown a = alignDown addr
  · rw [hword, Function.update_self, StoreKind.wordByte_merge halign _ _ (Nat.mod_lt _ (by decide))]
    by_cases hinside : addr.toNat % 4 ≤ a.toNat % 4 ∧
        a.toNat % 4 < addr.toNat % 4 + kind.width.toNat
    · rw [if_pos hinside, if_pos ((toNat_sub_lt_iff hplace).mpr ⟨hword, hinside⟩),
        toNat_sub_of_le hword hinside.1]
    · rw [if_neg hinside, if_neg fun h => hinside ((toNat_sub_lt_iff hplace).mp h).2]
  · rw [Function.update_of_ne hword, if_neg fun h => hword ((toNat_sub_lt_iff hplace).mp h).1]

end ByteMemory

/-! ### Transfers -/

/-- A load or store. -/
inductive Transfer where
  | load (kind : LoadKind) (rd rs1 : Reg) (imm : Int32)
  | store (kind : StoreKind) (rs1 rs2 : Reg) (imm : Int32)

namespace Transfer

/-- The instruction that makes a transfer. -/
def instruction : Transfer → Instruction
  | .load kind rd rs1 imm => .load kind rd rs1 imm
  | .store kind rs1 rs2 imm => .store kind rs1 rs2 imm

/-- The number of bytes. -/
def width (t : Transfer) : Nat := t.instruction.accessWidth.toNat

/-- The address of the first byte. -/
def addr (t : Transfer) (cpu : Cpu) : UInt32 :=
  match t with
  | .load _ _ rs1 imm | .store _ rs1 _ imm => cpu.reg rs1 + imm.toUInt32

/-- What a transfer moves between registers and a memory of bytes. -/
def move (t : Transfer) (p : Machine × ByteMemory) : Machine × ByteMemory :=
  let addr := t.addr p.1.cpu
  match t with
  | .load kind rd _ _ => ((p.1.setReg rd (kind.value (p.2.read addr t.width))).advance, p.2)
  | .store _ _ rs2 _ =>
    (p.1.advance, p.2.write addr ((Bytes.ofWord (p.1.cpu.reg rs2)).take t.width))

/-- A transfer between registers and a memory of bytes. Misaligned addresses fault as such whether
they are in range or not. -/
def onBytes (params : Params) (p : Machine × ByteMemory) (t : Transfer) :
    Except FaultReason (Machine × ByteMemory) :=
  let addr := t.addr p.1.cpu
  if addr.toNat % t.width ≠ 0 then .error (.misalignedAccess addr)
  else if addr < minMemory ∨ params.maxMemory ≤ addr then .error (.memoryOutOfBounds addr)
  else .ok (t.move p)

/-- The effect of a transfer whose access passes its check. -/
def effect (t : Transfer) (m : Machine) : Effect :=
  let addr := t.addr m.cpu
  match t with
  | .load kind rd _ _ =>
    .load (alignDown addr) fun word => (m.setReg rd (kind.extract addr word)).advance
  | .store kind _ rs2 _ => .store (alignDown addr) (kind.merge addr (m.cpu.reg rs2)) m.advance

variable {params : Params} {m : Machine} {t : Transfer}

theorem effect_instruction (params : Params) (m : Machine) (t : Transfer) :
    t.instruction.effect params m =
      (checkAccess params (t.addr m.cpu) t.instruction.accessWidth).map fun _ => t.effect m := by
  cases t <;> rfl

/-- The check of an access, by the numbers of its address and its bytes. -/
theorem checkAccess_eq (params : Params) (t : Transfer) (cpu : Cpu) :
    checkAccess params (t.addr cpu) t.instruction.accessWidth =
      if (t.addr cpu).toNat % t.width ≠ 0 then .error (.misalignedAccess (t.addr cpu))
      else if t.addr cpu < minMemory ∨ params.maxMemory ≤ t.addr cpu then
        .error (.memoryOutOfBounds (t.addr cpu))
      else .ok () := by
  have halign : t.addr cpu % t.instruction.accessWidth ≠ 0 ↔ (t.addr cpu).toNat % t.width ≠ 0 := by
    rw [ne_eq, ← UInt32.toNat_inj, UInt32.toNat_mod]
    rfl
  have hvalid : (!params.isValidAddr (t.addr cpu)) = true ↔
      t.addr cpu < minMemory ∨ params.maxMemory ≤ t.addr cpu := by
    simp [Params.isValidAddr, Classical.or_iff_not_imp_left]
  simp only [checkAccess, halign, hvalid]

/-- On bytes, a transfer makes the check of its access. -/
theorem onBytes_eq (params : Params) (p : Machine × ByteMemory) (t : Transfer) :
    t.onBytes params p =
      (checkAccess params (t.addr p.1.cpu) t.instruction.accessWidth).map fun _ => t.move p := by
  rw [checkAccess_eq, onBytes]
  split
  · rfl
  · split
    · rfl
    · rfl

theorem width_cases (t : Transfer) : t.width = 1 ∨ t.width = 2 ∨ t.width = 4 := by
  cases t with
  | load kind => cases kind <;> simp [width, instruction, Instruction.accessWidth, LoadKind.width]
  | store kind => cases kind <;> simp [width, instruction, Instruction.accessWidth, StoreKind.width]

/-- An access that passes its check is aligned, and so its bytes lie in one word. -/
theorem aligned_of_checkAccess
    (h : checkAccess params (t.addr m.cpu) t.instruction.accessWidth = .ok ()) :
    (t.addr m.cpu).toNat % t.width = 0 ∧ (t.addr m.cpu).toNat % 4 + t.width ≤ 4 := by
  have halign : (t.addr m.cpu).toNat % t.width = 0 := by
    rw [checkAccess_eq] at h
    by_contra hne
    rw [if_pos hne] at h
    simp at h
  refine ⟨halign, ?_⟩
  rcases t.width_cases with hwidth | hwidth | hwidth <;> rw [hwidth] at halign ⊢ <;> omega

end Transfer

/-! ### Machines over words and over bytes -/

/-- A machine that executes transfers on a bus, step after step, up to a fault or past the last. -/
inductive Machine.Executes {σ : Type} (bus : Bus σ) (params : Params) :
    Machine → σ → List Transfer → Except FaultReason (Machine × σ) → Prop where
  | done (m : Machine) (s : σ) : Executes bus params m s [] (.ok (m, s))
  | step {m : Machine} {s : σ} {t : Transfer} {ts : List Transfer} {outcome : StepOutcome}
      {r : Except FaultReason (Machine × σ)} (hf : canFetch params m.cpu.pc = true)
      (hinst : Instruction.decode (bus.fetch s m.cpu.pc).1 = some t.instruction)
      (hstep : (m.step bus params s).result = .ok outcome)
      (rest : Executes bus params (m.step bus params s).machine (m.step bus params s).bus ts r) :
      Executes bus params m s (t :: ts) r
  | fault {m : Machine} {s : σ} {t : Transfer} {ts : List Transfer} {reason : FaultReason}
      (hf : canFetch params m.cpu.pc = true)
      (hinst : Instruction.decode (bus.fetch s m.cpu.pc).1 = some t.instruction)
      (hstep : (m.step bus params s).result = .error reason) :
      Executes bus params m s (t :: ts) (.error reason)

section

variable {σ : Type} {bus : Bus σ} {params : Params} {holds : σ → (UInt32 → UInt32) → Prop}
  {m : Machine} {s : σ} {words : UInt32 → UInt32} {t : Transfer}

/-- A machine over words that is one over bytes: the registers and the journal are the same, and
the words behind the bus have these bytes. -/
def SeesBytes (holds : σ → (UInt32 → UInt32) → Prop) (p : Machine × σ) (q : Machine × ByteMemory) :
    Prop :=
  p.1 = q.1 ∧ ∃ words, holds p.2 words ∧ ByteMemory.ofWords words = q.2

/-- The effect of a transfer moves what the transfer moves on bytes. -/
theorem Transfer.seesBytes_run (hbus : bus.HasMemory params holds) (hs : holds s words)
    (hcheck : checkAccess params (t.addr m.cpu) t.instruction.accessWidth = .ok ()) :
    SeesBytes holds (((t.effect m).run bus s).machine, ((t.effect m).run bus s).bus)
      (t.move (m, .ofWords words)) := by
  have hreaches : params.Reaches (alignDown (t.addr m.cpu)) :=
    ⟨_, isValidAddr_of_checkAccess hcheck, rfl⟩
  have hword := hbus.load_eq hs hreaches
  have hs' := hbus.load hs hreaches
  obtain ⟨halign, hplace⟩ := aligned_of_checkAccess hcheck
  cases t with
  | load kind rd rs1 imm =>
    have hvalue := (congrArg kind.value (ByteMemory.read_ofWords words hplace)).trans
      (LoadKind.value_wordBytes halign _)
    refine ⟨?_, words, hs', rfl⟩
    simp only [effect, Effect.run, move, hword]
    exact congrArg (fun value => (m.setReg rd value).advance) hvalue.symm
  | store kind rs1 rs2 imm =>
    refine ⟨rfl, _, hbus.store _ hs' hreaches, ?_⟩
    rw [hword]
    exact ByteMemory.ofWords_update_merge words halign hplace _

/-- The machine and the state of the bus after a step, or its fault. -/
def StepResult.after (r : StepResult σ) : Except FaultReason (Machine × σ) :=
  r.result.map fun _ => (r.machine, r.bus)

/-- A step that makes a transfer does the same as on bytes. -/
theorem Machine.seesBytes_step (hbus : bus.HasMemory params holds) (hs : holds s words)
    (hf : canFetch params m.cpu.pc = true)
    (hinst : Instruction.decode (bus.fetch s m.cpu.pc).1 = some t.instruction) :
    AgreesUpTo (SeesBytes holds) (m.step bus params s).after
      (t.onBytes params (m, .ofWords words)) := by
  have hs' := hbus.fetch hs (Params.reaches_of_canFetch hf)
  have hplan : m.plan params (bus.fetch s m.cpu.pc).1 =
      (checkAccess params (t.addr m.cpu) t.instruction.accessWidth).map fun _ => t.effect m := by
    rw [plan, hinst]
    exact t.effect_instruction params m
  rw [Transfer.onBytes_eq]
  cases hcheck : checkAccess params (t.addr m.cpu) t.instruction.accessWidth with
  | error reason =>
    rw [hcheck] at hplan
    rw [step_of_plan_error hf hplan]
    exact .error reason
  | ok _ =>
    rw [hcheck] at hplan
    obtain ⟨outcome, ho⟩ := (t.effect m).run_result bus (bus.fetch s m.cpu.pc).2
    rw [step_of_plan_ok hf hplan, StepResult.after, ho]
    exact .ok (Transfer.seesBytes_run hbus hs' hcheck)

/-- Behind transfers without a fault, others can follow. -/
theorem Machine.Executes.append {n : Machine} {s' : σ} {ts ts' : List Transfer}
    {r : Except FaultReason (Machine × σ)} (h : Executes bus params m s ts (.ok (n, s')))
    (h' : Executes bus params n s' ts' r) : Executes bus params m s (ts ++ ts') r := by
  generalize hend : (.ok (n, s') : Except FaultReason (Machine × σ)) = x at h
  induction h with
  | done m s =>
    obtain ⟨rfl, rfl⟩ := Prod.mk.inj (Except.ok.inj hend)
    exact h'
  | step hf hinst hstep _ ih => exact .step hf hinst hstep (ih hend)
  | fault => simp at hend

/-- **Memory is a memory of bytes.** A machine over a bus with a memory that executes loads and
stores ends as the same transfers end on the bytes of that memory: in the same registers and a
memory with the same bytes, or in the same fault. -/
theorem Machine.Executes.bytewise {ts : List Transfer} {r : Except FaultReason (Machine × σ)}
    (hbus : bus.HasMemory params holds) (hs : holds s words)
    (h : Executes bus params m s ts r) :
    AgreesUpTo (SeesBytes holds) r
      (ts.foldlM (Transfer.onBytes params) (m, ByteMemory.ofWords words)) := by
  induction h generalizing words with
  | done m s => exact .ok ⟨rfl, words, hs, rfl⟩
  | step hf hinst hstep rest ih =>
    have hagree := seesBytes_step hbus hs hf hinst
    rw [StepResult.after, hstep] at hagree
    obtain ⟨⟨n, mem⟩, hbytes, hmachine, words', hs', hmem⟩ := hagree.exists_of_ok
    obtain rfl : _ = n := hmachine
    obtain rfl : _ = mem := hmem
    rw [List.foldlM_cons, hbytes]
    exact ih hs'
  | fault hf hinst hstep =>
    have hagree := seesBytes_step hbus hs hf hinst
    rw [StepResult.after, hstep] at hagree
    rw [List.foldlM_cons, hagree.eq_of_error]
    exact .error _

end

namespace TransferringGuest

/-- The parameters of the guest. -/
def params : Params := { memoryBits := 14 }

/-- Stores of one byte and of two bytes into one word, and loads of both. -/
def transfers : List Transfer :=
  [.store .byte .a0 .a1 1, .store .half .a0 .a1 2, .load .half .a7 .a0 2,
    .load .byteUnsigned .sp .a0 1]

/-- A load of four bytes across two words. -/
def across : Transfer := .load .word .a1 .a0 2

/-- The instructions in memory. -/
def memory : Memory :=
  (((((Memory.empty params).storeWord 0x1000 0x00b500a3).storeWord 0x1004 0x00b51123).storeWord
    0x1008 0x00251883).storeWord 0x100c 0x00154103).storeWord 0x1010 0x00252583

/-- A machine that is about to execute the transfers, at `0x2000`. -/
def machine : Machine :=
  ⟨(⟨0x1000, .replicate 32 0⟩ : Cpu).setReg .a0 0x2000 |>.setReg .a1 0x80ef, {}⟩

/-- The memory behind the bus. -/
def world : World := ⟨memory, { bytes := [] }, #[]⟩

theorem holds_world : World.Holds params world memory.loadWord where
  wellFormed :=
    have hempty : (Memory.empty params).WellFormedFor params :=
      ⟨Memory.wellFormed_empty (Params.validate_eq_ok_iff.mpr (by decide)), rfl, rfl⟩
    ((((hempty.storeWord ⟨rfl, by decide⟩ _).storeWord ⟨rfl, by decide⟩ _).storeWord
      ⟨rfl, by decide⟩ _).storeWord ⟨rfl, by decide⟩ _).storeWord ⟨rfl, by decide⟩ _
  loadWord_eq _ _ := rfl

end TransferringGuest

open TransferringGuest in
/-- The guest stores and loads what it does on bytes, and its last load faults as it does there. -/
theorem Machine.Executes.bytewise_mixed :
    (∃ n mem, transfers.foldlM (Transfer.onBytes params)
        (machine, ByteMemory.ofWords memory.loadWord) = .ok (n, mem) ∧
      n.cpu.reg .a7 = 0xffff80ef ∧ n.cpu.reg .sp = 0xef) ∧
    (transfers ++ [across]).foldlM (Transfer.onBytes params)
        (machine, ByteMemory.ofWords memory.loadWord) = .error (.misalignedAccess 0x2002) := by
  have hmoves : Executes World.bus params machine world transfers (.ok _) :=
    .step (by decide +kernel) (by decide +kernel) (show _ = Except.ok .next by decide +kernel) <|
    .step (by decide +kernel) (by decide +kernel) (show _ = Except.ok .next by decide +kernel) <|
    .step (by decide +kernel) (by decide +kernel) (show _ = Except.ok .next by decide +kernel) <|
    .step (by decide +kernel) (by decide +kernel) (show _ = Except.ok .next by decide +kernel) <|
    .done _ _
  have hfault : Executes World.bus params machine world (transfers ++ [across])
      (.error (.misalignedAccess 0x2002)) :=
    hmoves.append (.fault (by decide +kernel) (by decide +kernel) (by decide +kernel))
  obtain ⟨⟨n, mem⟩, hbytes, rfl, -⟩ :=
    (Executes.bytewise (World.hasMemory params) holds_world hmoves).exists_of_ok
  exact ⟨⟨_, mem, hbytes, by decide +kernel, by decide +kernel⟩,
    (Executes.bytewise (World.hasMemory params) holds_world hfault).eq_of_error⟩

end ReplayVM
