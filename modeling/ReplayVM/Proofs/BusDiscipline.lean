import ReplayVM.Proofs.MemoryConstruction
import ReplayVM.Proofs.MemorySimulation
import ReplayVM.Step.Log
import ReplayVM.Step.WordMap

/-!
# The discipline of the bus

A recorder keeps one word and one path for each access of an instruction, a row answers each
question once, and the pager counts the pages of an instruction before it runs. They all rely on
what one step asks of its bus, in which order and about which addresses, whatever stands behind the
bus. A step that faults has asked for nothing but the instruction word.

## Main definitions

* `Effect.accesses`, `Machine.accesses`: what an effect and a step ask of the bus, in order.
* `Machine.Asks`: what an instruction asks behind its fetch.
* `Machine.Disciplined`: the rules for what one step asks.

## Main results

* `Machine.step_logged`: logging changes no step.
* `Machine.inert_of_error`: a step that faults leaves everything as it was.
* `Machine.accesses_disciplined`: every step keeps to the rules, and to the pages counted before.
-/

namespace ReplayVM

variable {σ : Type} {bus : Bus σ} {params : Params} {m : Machine} {s : σ} {inst : Instruction}
  {effect : Effect}

/-! ### Logged steps -/

/-- What an effect asks of the bus, in order. -/
def Effect.accesses (bus : Bus σ) (s : σ) : Effect → List Access
  | .finish _ _ => []
  | .load addr _ => [.load addr (bus.load s addr).1]
  | .store addr merge _ =>
    [.load addr (bus.load s addr).1, .store addr (merge (bus.load s addr).1)]
  | .call request _ => [.call request]

/-- What a step asks of the bus, in order. -/
def Machine.accesses (bus : Bus σ) (params : Params) (m : Machine) (s : σ) : List Access :=
  (m.step bus.logged params (s, [])).bus.2.reverse

/-- Logging changes no effect, and the log has what the effect asks. -/
theorem Effect.run_logged (bus : Bus σ) (s : σ) (log : List Access) (effect : Effect) :
    effect.run bus.logged (s, log) =
      ⟨(effect.run bus s).result, (effect.run bus s).machine,
        (effect.run bus s).bus, (effect.accesses bus s).reverse ++ log⟩ := by
  cases effect <;> rfl

namespace Machine

theorem step_logged_of_plan_error {reason : FaultReason} (log : List Access)
    (hf : canFetch params m.cpu.pc = true)
    (hp : m.plan params (bus.fetch s m.cpu.pc).1 = .error reason) :
    m.step bus.logged params (s, log) = ⟨.error reason, m,
      (bus.fetch s m.cpu.pc).2, .fetch m.cpu.pc (bus.fetch s m.cpu.pc).1 :: log⟩ :=
  step_of_plan_error hf hp

theorem step_logged_of_plan_ok (log : List Access) (hf : canFetch params m.cpu.pc = true)
    (hp : m.plan params (bus.fetch s m.cpu.pc).1 = .ok effect) :
    m.step bus.logged params (s, log) =
      effect.run bus.logged ((bus.fetch s m.cpu.pc).2,
        .fetch m.cpu.pc (bus.fetch s m.cpu.pc).1 :: log) :=
  step_of_plan_ok hf hp

theorem accesses_of_not_canFetch (hf : canFetch params m.cpu.pc = false) :
    m.accesses bus params s = [] := by
  rw [accesses, step_of_not_canFetch hf]
  rfl

theorem accesses_of_plan_error {reason : FaultReason} (hf : canFetch params m.cpu.pc = true)
    (hp : m.plan params (bus.fetch s m.cpu.pc).1 = .error reason) :
    m.accesses bus params s = [.fetch m.cpu.pc (bus.fetch s m.cpu.pc).1] := by
  rw [accesses, step_logged_of_plan_error [] hf hp]
  rfl

theorem accesses_of_plan_ok (hf : canFetch params m.cpu.pc = true)
    (hp : m.plan params (bus.fetch s m.cpu.pc).1 = .ok effect) :
    m.accesses bus params s = .fetch m.cpu.pc (bus.fetch s m.cpu.pc).1 ::
      effect.accesses bus (bus.fetch s m.cpu.pc).2 := by
  rw [accesses, step_logged_of_plan_ok [] hf hp, Effect.run_logged]
  simp

/-- Logging changes no step, and the log has what the step asks. -/
theorem step_logged (bus : Bus σ) (params : Params) (m : Machine) (s : σ) (log : List Access) :
    m.step bus.logged params (s, log) =
      ⟨(m.step bus params s).result, (m.step bus params s).machine,
        (m.step bus params s).bus, (m.accesses bus params s).reverse ++ log⟩ := by
  cases hf : canFetch params m.cpu.pc with
  | false =>
    rw [accesses_of_not_canFetch hf, step_of_not_canFetch hf, step_of_not_canFetch hf]
    rfl
  | true =>
    cases hp : m.plan params (bus.fetch s m.cpu.pc).1 with
    | error reason =>
      rw [accesses_of_plan_error hf hp, step_of_plan_error hf hp,
        step_logged_of_plan_error log hf hp]
      rfl
    | ok effect =>
      rw [accesses_of_plan_ok hf hp, step_of_plan_ok hf hp, step_logged_of_plan_ok log hf hp,
        Effect.run_logged]
      simp

/-! ### Faults -/

/-- A step that faults has asked for the instruction word, or not even that. -/
theorem accesses_of_error {reason : FaultReason}
    (h : (m.step bus params s).result = .error reason) :
    m.accesses bus params s = [] ∨
      m.accesses bus params s = [.fetch m.cpu.pc (bus.fetch s m.cpu.pc).1] := by
  have hlogged : (m.step bus.logged params (s, [])).result = .error reason := by
    rw [step_logged]
    exact h
  rw [accesses]
  obtain hstep | hstep := step_of_error hlogged <;> rw [hstep]
  · exact .inl rfl
  · exact .inr rfl

end Machine

/-- **Faults leave everything.** A step that faults leaves registers and journal as they were, has
neither stored a word nor asked the host, and has at most fetched its instruction word. -/
theorem Machine.inert_of_error (bus : Bus σ) (params : Params) (m : Machine) (s : σ)
    {reason : FaultReason} (h : (m.step bus params s).result = .error reason) :
    (m.step bus params s).machine = m ∧
    (∀ addr value, Access.store addr value ∉ m.accesses bus params s) ∧
    (∀ request, Access.call request ∉ m.accesses bus params s) ∧
    ((m.step bus params s).bus = s ∨ (m.step bus params s).bus = (bus.fetch s m.cpu.pc).2) := by
  have hunasked : ∀ access ∈ m.accesses bus params s,
      access = .fetch m.cpu.pc (bus.fetch s m.cpu.pc).1 := by
    obtain haccesses | haccesses := accesses_of_error h <;> simp [haccesses]
  refine ⟨?_, fun addr value hmem => ?_, fun request hmem => ?_, ?_⟩
  · obtain hstep | hstep := step_of_error h <;> rw [hstep]
  · cases hunasked _ hmem
  · cases hunasked _ hmem
  · obtain hstep | hstep := step_of_error h <;> rw [hstep]
    · exact .inl rfl
    · exact .inr rfl

namespace FullJournal

/-- A machine with a full journal that is about to write one more byte. -/
def machine : Machine :=
  ⟨(⟨0x1000, .replicate 32 0⟩ : Cpu).setReg .a7 4 |>.setReg .a1 1, ⟨maxOutputLen.toUInt32, .zero⟩⟩

/-- The system call in memory. -/
def words : WordMap := WordMap.set {} 0x1000 0x73

end FullJournal

open FullJournal in
/-- A write to a full journal faults, with nothing absorbed. -/
theorem Machine.inert_of_error_full :
    (machine.step WordMap.bus {} words).result = .error .outputLimitExceeded ∧
    (machine.step WordMap.bus {} words).machine = machine ∧
    machine.accesses WordMap.bus {} words = [.fetch 0x1000 0x73] := by
  have h : (machine.step WordMap.bus {} words).result = .error .outputLimitExceeded := by
    decide +kernel
  exact ⟨h, (Machine.inert_of_error _ _ _ _ h).1, by decide +kernel⟩

/-! ### What one step asks -/

/-- What a step asks of the bus, in order, when the word at the program counter is the given one. -/
inductive Machine.Asks (params : Params) (m : Machine) (word : UInt32) : List Access → Prop where
  | nothing : Asks params m word []
  | fetch (hf : canFetch params m.cpu.pc = true) : Asks params m word [.fetch m.cpu.pc word]
  | load {inst : Instruction} {data old : UInt32} (hf : canFetch params m.cpu.pc = true)
      (hinst : Instruction.decode word = some inst) (hdata : inst.dataAddress m.cpu = some data)
      (hvalid : params.isValidAddr data = true) :
      Asks params m word [.fetch m.cpu.pc word, .load (alignDown data) old]
  | store {inst : Instruction} {data old value : UInt32} (hf : canFetch params m.cpu.pc = true)
      (hinst : Instruction.decode word = some inst) (hdata : inst.dataAddress m.cpu = some data)
      (hvalid : params.isValidAddr data = true) :
      Asks params m word
        [.fetch m.cpu.pc word, .load (alignDown data) old, .store (alignDown data) value]
  | call {request : HostCall} (hf : canFetch params m.cpu.pc = true)
      (hinst : Instruction.decode word = some .ecall)
      (hcall : m.cpu.reg .a7 = request.number) :
      Asks params m word [.fetch m.cpu.pc word, .call request]

/-- Behind its fetch, an instruction asks for what its effect needs. -/
theorem Effect.Follows.asks {word : UInt32} (h : effect.Follows params m inst)
    (hf : Machine.canFetch params m.cpu.pc = true) (hinst : Instruction.decode word = some inst)
    (bus : Bus σ) (s : σ) :
    m.Asks params word (.fetch m.cpu.pc word :: effect.accesses bus s) := by
  cases h with
  | compute | move | halt | pause | yield | write => exact .fetch hf
  | load haccess => exact .load hf hinst rfl (isValidAddr_of_checkAccess haccess)
  | store haccess => exact .store hf hinst rfl (isValidAddr_of_checkAccess haccess)
  | call hcall => exact .call hf hinst hcall

/-- Every step asks in one of these ways. -/
theorem Machine.asks_accesses (bus : Bus σ) (params : Params) (m : Machine) (s : σ) :
    m.Asks params (bus.fetch s m.cpu.pc).1 (m.accesses bus params s) := by
  cases hf : canFetch params m.cpu.pc with
  | false => exact accesses_of_not_canFetch hf ▸ .nothing
  | true =>
    cases hp : m.plan params (bus.fetch s m.cpu.pc).1 with
    | error reason => exact accesses_of_plan_error hf hp ▸ .fetch hf
    | ok effect =>
      obtain ⟨inst, hinst, hfollows⟩ := follows_of_plan hp
      exact accesses_of_plan_ok hf hp ▸ hfollows.asks hf hinst bus _

namespace Access

def isFetch : Access → Bool
  | .fetch .. => true
  | _ => false

def isLoad : Access → Bool
  | .load .. => true
  | _ => false

def isStore : Access → Bool
  | .store .. => true
  | _ => false

def isCall : Access → Bool
  | .call _ => true
  | _ => false

/-- The address that the bus is asked about. -/
def addr? : Access → Option UInt32
  | .fetch addr _ | .load addr _ | .store addr _ => some addr
  | .call _ => none

end Access

/-- The rules for what one step of a machine asks of the bus, in order. -/
structure Machine.Disciplined (params : Params) (m : Machine) (accesses : List Access) : Prop where
  fetch_once : accesses.countP Access.isFetch ≤ 1
  fetch_pc : ∀ pc word, .fetch pc word ∈ accesses → pc = m.cpu.pc
  load_once : accesses.countP Access.isLoad ≤ 1
  store_once : accesses.countP Access.isStore ≤ 1
  /-- A store stands right behind a load of the same address. -/
  store_behind_load : ∀ i addr value, accesses[i]? = some (.store addr value) →
    ∃ j word, i = j + 1 ∧ accesses[j]? = some (.load addr word)
  call_once : accesses.countP Access.isCall ≤ 1
  /-- The guest asks for the call by its number. -/
  call_number : ∀ request, .call request ∈ accesses → m.cpu.reg .a7 = request.number
  call_without_load : ∀ request, .call request ∈ accesses →
    ∀ addr word, .load addr word ∉ accesses
  /-- Every address is that of a word of the guest. -/
  word_addr : ∀ access ∈ accesses, ∀ addr, access.addr? = some addr →
    addr % 4 = 0 ∧ minMemory ≤ addr ∧ addr < params.maxMemory
  /-- The word of a load or store is the one around the data address of the instruction. -/
  data_addr : ∀ access ∈ accesses, access.isFetch = false → ∀ addr, access.addr? = some addr →
    ∃ word inst data, .fetch m.cpu.pc word ∈ accesses ∧ Instruction.decode word = some inst ∧
      inst.dataAddress m.cpu = some data ∧ addr = alignDown data

/-- The word around a valid address is a word of the guest. -/
theorem wordAddr_alignDown {data : UInt32} (h : params.isValidAddr data = true) :
    alignDown data % 4 = 0 ∧ minMemory ≤ alignDown data ∧ alignDown data < params.maxMemory := by
  simp only [Params.isValidAddr, Bool.and_eq_true, decide_eq_true_eq, UInt32.le_iff_toNat_le,
    UInt32.lt_iff_toNat_lt] at h
  obtain ⟨hmin, hmax⟩ := h
  have hmin' : 4096 ≤ data.toNat := hmin
  refine ⟨UInt32.toNat_inj.mp ?_, UInt32.le_iff_toNat_le.mpr ?_, UInt32.lt_iff_toNat_lt.mpr ?_⟩
  · rw [UInt32.toNat_mod, toNat_alignDown]
    exact Nat.mul_mod_left _ 4
  · rw [toNat_alignDown]
    change 4096 ≤ data.toNat / 4 * 4
    omega
  · rw [toNat_alignDown]
    omega

/-- An address where an instruction can be fetched is that of a word of the guest. -/
theorem Machine.wordAddr_of_canFetch {pc : UInt32} (h : canFetch params pc = true) :
    pc % 4 = 0 ∧ minMemory ≤ pc ∧ pc < params.maxMemory := by
  obtain ⟨halign, hvalid⟩ := alignDown_of_canFetch h
  rw [← halign]
  exact wordAddr_alignDown hvalid

/-- What a step asks keeps to the rules. -/
theorem Machine.Asks.disciplined {word : UInt32} {accesses : List Access}
    (h : m.Asks params word accesses) : m.Disciplined params accesses where
  fetch_once := by cases h <;> simp [List.countP_cons, Access.isFetch]
  fetch_pc := by cases h <;> simp
  load_once := by cases h <;> simp [List.countP_cons, Access.isLoad]
  store_once := by cases h <;> simp [List.countP_cons, Access.isStore]
  store_behind_load i addr value hi := by
    cases h with
    | nothing => simp at hi
    | fetch => rcases i with _ | i <;> simp at hi
    | load | call => rcases i with _ | _ | i <;> simp at hi
    | store =>
      rcases i with _ | _ | _ | i <;> simp at hi
      exact ⟨1, _, rfl, by rw [hi.1]; rfl⟩
  call_once := by cases h <;> simp [List.countP_cons, Access.isCall]
  call_number := by cases h <;> simp_all
  call_without_load := by cases h <;> simp
  word_addr := by
    cases h with
    | nothing => simp
    | fetch hf | call hf => simpa [Access.addr?] using wordAddr_of_canFetch hf
    | load hf _ _ hvalid | store hf _ _ hvalid =>
      simpa [Access.addr?] using ⟨wordAddr_of_canFetch hf, wordAddr_alignDown hvalid⟩
  data_addr access hmem hfetch addr haddr := by
    cases h with
    | nothing | fetch => simp_all [Access.isFetch]
    | call =>
      simp only [List.mem_cons, List.not_mem_nil, or_false] at hmem
      rcases hmem with rfl | rfl <;> simp_all [Access.isFetch, Access.addr?]
    | load _ hinst hdata | store _ hinst hdata =>
      refine ⟨word, _, _, List.mem_cons_self, hinst, hdata, ?_⟩
      simp only [List.mem_cons, List.not_mem_nil, or_false] at hmem
      rcases hmem with rfl | rfl | rfl <;> simp_all [Access.isFetch, Access.addr?]

/-! ### Pages -/

/-- A word lies on the page of each of its bytes. -/
theorem Params.pageIndex_alignDown (h : params.validate = .ok ()) (addr : UInt32) :
    params.pageIndex (alignDown addr) = params.pageIndex addr := by
  obtain ⟨hwords, -⟩ : params.pageSize.toNat % 4 = 0 ∧ _ :=
    (Memory.wellFormed_empty h).toFits.pageSize_words
  obtain ⟨count, hcount⟩ := Nat.dvd_of_mod_eq_zero hwords
  refine UInt32.toNat_inj.mp ?_
  rw [pageIndex, pageIndex, UInt32.toNat_div, UInt32.toNat_div, toNat_alignDown, hcount,
    ← Nat.div_div_eq_div_mul, ← Nat.div_div_eq_div_mul, Nat.mul_div_cancel _ (by decide)]

namespace Live

variable {live : Live}

/-- The page of the next instruction is counted. -/
theorem pageIndex_pc_mem (hf : Machine.canFetch live.params live.machine.cpu.pc = true) :
    live.params.pageIndex live.machine.cpu.pc ∈ live.nextPages := by
  simp [nextPages, hf]

/-- The page of the data of the next instruction is counted. -/
theorem pageIndex_data_mem (hf : Machine.canFetch live.params live.machine.cpu.pc = true)
    (hinst : Instruction.decode (live.world.memory.loadWord live.machine.cpu.pc) = some inst)
    {data : UInt32} (hdata : inst.dataAddress live.machine.cpu = some data)
    (hvalid : live.params.isValidAddr data = true) :
    live.params.pageIndex data ∈ live.nextPages := by
  by_cases hpage : live.params.pageIndex data = live.params.pageIndex live.machine.cpu.pc
  · exact hpage ▸ pageIndex_pc_mem hf
  · have hdataPage : live.dataPage = some (live.params.pageIndex data) := by
      simp [dataPage, hinst, hdata, hvalid, hpage]
    simp [nextPages, hf, hdataPage]

/-- What the next instruction asks about lies on the pages that are counted for it. -/
theorem pageIndex_mem_nextPages (hparams : live.params.validate = .ok ()) {accesses : List Access}
    (h : live.machine.Asks live.params (live.world.memory.loadWord live.machine.cpu.pc) accesses) :
    ∀ access ∈ accesses, ∀ addr, access.addr? = some addr →
      live.params.pageIndex addr ∈ live.nextPages := by
  cases h with
  | nothing => simp
  | fetch hf | call hf => simpa [Access.addr?] using pageIndex_pc_mem hf
  | load hf hinst hdata hvalid | store hf hinst hdata hvalid =>
    have hpage := pageIndex_data_mem hf hinst hdata hvalid
    rw [← Params.pageIndex_alignDown hparams] at hpage
    simpa [Access.addr?] using ⟨pageIndex_pc_mem hf, hpage⟩

end Live

/-- **The discipline of the bus.** Whatever stands behind the bus, one step keeps to the rules for
what it asks, and logging it changes nothing. The addresses lie on the pages that are counted for
the next instruction of a running machine in the same state whose memory holds the word fetched. -/
theorem Machine.accesses_disciplined (bus : Bus σ) (params : Params)
    (hparams : params.validate = .ok ()) (m : Machine) (s : σ) :
    (∀ log, m.step bus.logged params (s, log) =
      ⟨(m.step bus params s).result, (m.step bus params s).machine,
        (m.step bus params s).bus, (m.accesses bus params s).reverse ++ log⟩) ∧
    m.Disciplined params (m.accesses bus params s) ∧
    ∀ live : Live, live.params = params → live.machine = m →
      live.world.memory.loadWord m.cpu.pc = (bus.fetch s m.cpu.pc).1 →
      ∀ access ∈ m.accesses bus params s, ∀ addr, access.addr? = some addr →
        params.pageIndex addr ∈ live.nextPages := by
  have hasks := m.asks_accesses bus params s
  refine ⟨step_logged bus params m s, hasks.disciplined, ?_⟩
  rintro live rfl rfl hword
  exact Live.pageIndex_mem_nextPages hparams (hword ▸ hasks)

namespace HalfStore

/-- A machine that is about to store `0xbeef` at `0x2006`. -/
def machine : Machine :=
  ⟨(⟨0x1000, .replicate 32 0⟩ : Cpu).setReg .a0 0x2000 |>.setReg .a1 0xbeef, {}⟩

/-- The instruction, and the word that it changes. -/
def words : WordMap := (WordMap.set {} 0x1000 0x00b51323).set 0x2004 0x01234567

end HalfStore

open HalfStore in
/-- A store of two bytes loads the word around them and stores it again. -/
theorem Machine.accesses_disciplined_storing :
    Params.validate {} = .ok () ∧
    machine.accesses WordMap.bus {} words =
      [.fetch 0x1000 0x00b51323, .load 0x2004 0x01234567, .store 0x2004 0xbeef4567] ∧
    machine.Disciplined {} (machine.accesses WordMap.bus {} words) := by
  have hparams : Params.validate {} = .ok () := by decide
  exact ⟨hparams, by decide +kernel, (accesses_disciplined _ _ hparams _ _).2.1⟩

end ReplayVM
