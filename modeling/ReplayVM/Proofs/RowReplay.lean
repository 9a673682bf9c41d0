import ReplayVM.Proofs.MerklePaths
import ReplayVM.Proofs.Steps
import ReplayVM.Witness.Replay

/-!
# Rows against memory

A row is replayed with its own words and its own answer of the host behind the bus. It is accepted
when it holds exactly what its instruction asks for, which leaves a handful of forms that a row can
have. The words of an accepted row are authenticated by paths; unless hashes collide they are the
words in memory, and the replay of the row is the step of a machine over that memory, the root after
a store included.

## Main definitions

* `Row.Explains`: the forms of a row that holds what its instruction asks for.
* `Row.request`: what the instruction of a row asks of the host.
* `Row.pathMessages`: the byte strings that are hashed when the words of a row are checked.

## Main results

* `Row.replay_eq_ok_iff`: what it takes for a row to be replayed.
* `MerklePath.eq_of_authenticates`: authenticated words are the words in memory.
* `Row.follow_of_replay`: the replay of a row is a step of the live machine.
* `Row.request_eq_of_replay`: the row asks what the live machine asks.
-/

namespace ReplayVM

/-! ### The forms of a row -/

namespace Evidence

theorem fetchWord_of_addr {e : Evidence} {f : FetchWitness} {pc : UInt32} (hf : e.fetch = some f)
    (hpc : f.addr = pc) (hnew : e.fetched = false) :
    e.fetchWord pc = (f.value, { e with fetched := true }) := by
  simp only [fetchWord, hf, hpc, hnew, Bool.not_false, and_self, if_true]

theorem loadWord_of_addr {e : Evidence} {d : DataWitness} {addr : UInt32} (hd : e.data = some d)
    (haddr : d.addr = addr) (hnew : e.loaded = false) :
    e.loadWord addr = (d.old, { e with loaded := true }) := by
  simp only [loadWord, hd, haddr, hnew, Bool.not_false, and_self, if_true]

/-- A step whose instruction word is at hand. -/
theorem step_of_fetch {params : Params} {m : Machine} {e : Evidence} {f : FetchWitness}
    (hc : Machine.canFetch params m.cpu.pc = true) (hf : e.fetch = some f)
    (hpc : f.addr = m.cpu.pc) (hnew : e.fetched = false) :
    m.step bus params e =
      match m.plan params f.value with
      | .error reason => ⟨.error reason, m, { e with fetched := true }⟩
      | .ok effect => effect.run bus { e with fetched := true } := by
  have hfetch : bus.fetch e m.cpu.pc = (f.value, { e with fetched := true }) :=
    fetchWord_of_addr hf hpc hnew
  have hstep : m.step bus params e = _ := Machine.step_of_canFetch hc
  rw [hfetch] at hstep
  exact hstep

theorem run_load {e : Evidence} {d : DataWitness} {next : UInt32 → Machine}
    (hd : e.data = some d) (hnew : e.loaded = false) :
    (Effect.load d.addr next).run bus e = ⟨.ok .next, next d.old, { e with loaded := true }⟩ := by
  simp only [Effect.run, bus, loadWord_of_addr hd rfl hnew]

theorem run_store {e : Evidence} {d : DataWitness} {merge : UInt32 → UInt32} {next : Machine}
    (hd : e.data = some d) (hloaded : e.loaded = false) (hstored : e.stored = false)
    (hmerge : d.new = merge d.old) :
    (Effect.store d.addr merge next).run bus e =
      ⟨.ok .next, next, { e with loaded := true, stored := true }⟩ := by
  simp [Effect.run, bus, loadWord_of_addr hd rfl hloaded, storeWord, hd, hmerge, hstored]

/-! What was refused once stays refused. -/

theorem invalid_loadWord {e : Evidence} (h : e.invalid = true) (addr : UInt32) :
    (e.loadWord addr).2.invalid = true := by
  unfold loadWord
  split
  · split
    · exact h
    · rfl
  · rfl

theorem invalid_storeWord {e : Evidence} (h : e.invalid = true) (addr value : UInt32) :
    (e.storeWord addr value).invalid = true := by
  unfold storeWord
  split
  · split
    · exact h
    · rfl
  · rfl

theorem invalid_reply {e : Evidence} (h : e.invalid = true) : e.reply.2.invalid = true := by
  unfold reply
  split
  · split
    · rfl
    · exact h
  · rfl

theorem invalid_run {e : Evidence} (h : e.invalid = true) (effect : Effect) :
    (effect.run bus e).bus.invalid = true := by
  cases effect with
  | finish outcome next => exact h
  | load addr next => exact invalid_loadWord h addr
  | store addr merge next => exact invalid_storeWord (invalid_loadWord h addr) _ _
  | call request next => exact invalid_reply h

/-- A step that asks for nothing that is not at hand fetches the word that is. -/
theorem fetch_of_step {params : Params} {m : Machine} {e : Evidence}
    (hc : Machine.canFetch params m.cpu.pc = true)
    (hvalid : (m.step bus params e).bus.invalid = false) :
    ∃ f, e.fetch = some f ∧ f.addr = m.cpu.pc ∧ e.fetched = false := by
  by_contra hno
  have hrefuse : e.fetchWord m.cpu.pc = (0, e.refuse) := by
    unfold fetchWord
    split
    · rename_i f hf
      rw [if_neg]
      intro h
      exact hno ⟨f, hf, h.1, by simpa using h.2⟩
    · rfl
  have hfetch : bus.fetch e m.cpu.pc = (0, e.refuse) := hrefuse
  rw [Machine.step_of_canFetch hc, hfetch] at hvalid
  cases hp : m.plan params 0 with
  | error reason => simp [hp, refuse] at hvalid
  | ok effect => simp [hp, invalid_run (show e.refuse.invalid = true from rfl)] at hvalid

theorem load_of_loadWord {e : Evidence} {addr : UInt32}
    (hvalid : (e.loadWord addr).2.invalid = false) :
    ∃ d, e.data = some d ∧ d.addr = addr ∧ e.loaded = false := by
  unfold loadWord at hvalid
  split at hvalid
  · rename_i d hd
    split at hvalid
    · rename_i h
      exact ⟨d, hd, h.1, by simpa using h.2⟩
    · simp [refuse] at hvalid
  · simp [refuse] at hvalid

theorem store_of_run {e : Evidence} {addr : UInt32} {merge : UInt32 → UInt32} {next : Machine}
    (hvalid : ((Effect.store addr merge next).run bus e).bus.invalid = false) :
    ∃ d, e.data = some d ∧ d.addr = addr ∧ e.loaded = false ∧ e.stored = false ∧
      d.new = merge d.old := by
  have hload : (e.loadWord addr).2.invalid = false := by
    cases h : (e.loadWord addr).2.invalid with
    | false => rfl
    | true =>
      have := invalid_storeWord h addr (merge (e.loadWord addr).1)
      exact absurd (this.symm.trans hvalid) (by simp)
  obtain ⟨d, hd, rfl, hloaded⟩ := load_of_loadWord hload
  simp only [Effect.run, bus, loadWord_of_addr hd rfl hloaded, storeWord, hd] at hvalid
  split at hvalid
  · rename_i h
    exact ⟨d, hd, rfl, hloaded, by simpa using h.2.2.2, h.2.1⟩
  · simp [refuse] at hvalid

end Evidence

namespace Row

/-- What the instruction of a row asks of the host, if it asks for anything. -/
def request (params : Params) (r : Row) : Option HostCall :=
  r.fetch.bind fun f => r.state.machine.request params f.value

/-- The rows of a state that hold what the next instruction asks for, with what the instruction
gives, the machine after it, and whether it stores. -/
inductive Explains (params : Params) (m : Machine) : Option FetchWitness → Option DataWitness →
    Option HostReply → Except FaultReason StepOutcome → Machine → Bool → Prop where
  | outside (hf : Machine.canFetch params m.cpu.pc = false) :
      Explains params m none none none (.error (.instructionFault m.cpu.pc)) m false
  | faults {f : FetchWitness} {reason : FaultReason}
      (hf : Machine.canFetch params m.cpu.pc = true) (hpc : f.addr = m.cpu.pc)
      (hp : m.plan params f.value = .error reason) :
      Explains params m (some f) none none (.error reason) m false
  | finish {f : FetchWitness} {outcome : StepOutcome} {next : Machine}
      (hf : Machine.canFetch params m.cpu.pc = true) (hpc : f.addr = m.cpu.pc)
      (hp : m.plan params f.value = .ok (.finish outcome next)) :
      Explains params m (some f) none none (.ok outcome) next false
  | load {f : FetchWitness} {d : DataWitness} {next : UInt32 → Machine}
      (hf : Machine.canFetch params m.cpu.pc = true) (hpc : f.addr = m.cpu.pc)
      (hp : m.plan params f.value = .ok (.load d.addr next)) :
      Explains params m (some f) (some d) none (.ok .next) (next d.old) false
  | store {f : FetchWitness} {d : DataWitness} {merge : UInt32 → UInt32} {next : Machine}
      (hf : Machine.canFetch params m.cpu.pc = true) (hpc : f.addr = m.cpu.pc)
      (hp : m.plan params f.value = .ok (.store d.addr merge next)) (hnew : d.new = merge d.old) :
      Explains params m (some f) (some d) none (.ok .next) next true
  | call {f : FetchWitness} {reply : HostReply} {request : HostCall} {next : HostReply → Machine}
      (hf : Machine.canFetch params m.cpu.pc = true) (hpc : f.addr = m.cpu.pc)
      (hp : m.plan params f.value = .ok (.call request next)) :
      Explains params m (some f) none (some reply) (.ok .next) (next reply) false

/-- The evidence of a row of which nothing was used. -/
def evidence (r : Row) : Evidence :=
  ⟨r.fetch, r.data, r.host, false, false, false, false, false⟩

theorem step_eq (params : Params) (r : Row) :
    r.step params = r.state.machine.step Evidence.bus params r.evidence := rfl

/-- A row that holds what its instruction asks for is stepped with all of it. -/
theorem step_of_explains {params : Params} {r : Row} {result : Except FaultReason StepOutcome}
    {m : Machine} {stored : Bool}
    (h : Explains params r.state.machine r.fetch r.data r.host result m stored) :
    (r.step params).result = result ∧ (r.step params).machine = m ∧
      (r.step params).bus.stored = stored ∧ (r.step params).bus.invalid = false ∧
      (r.step params).bus.allUsed = true := by
  obtain ⟨state, fetch, data, host⟩ := r
  rw [step_eq]
  simp only [evidence] at h ⊢
  cases h with
  | outside hf =>
    rw [Machine.step_of_not_canFetch hf]
    exact ⟨rfl, rfl, rfl, rfl, rfl⟩
  | faults hf hpc hp =>
    rw [Evidence.step_of_fetch hf rfl hpc rfl, hp]
    exact ⟨rfl, rfl, rfl, rfl, rfl⟩
  | finish hf hpc hp =>
    rw [Evidence.step_of_fetch hf rfl hpc rfl, hp]
    exact ⟨rfl, rfl, rfl, rfl, rfl⟩
  | load hf hpc hp =>
    rw [Evidence.step_of_fetch hf rfl hpc rfl, hp]
    simp [Evidence.run_load, Evidence.allUsed]
  | store hf hpc hp hnew =>
    rw [Evidence.step_of_fetch hf rfl hpc rfl, hp]
    simp [Evidence.run_store, Evidence.allUsed, hnew]
  | call hf hpc hp =>
    rw [Evidence.step_of_fetch hf rfl hpc rfl, hp]
    exact ⟨rfl, rfl, rfl, rfl, rfl⟩

/-- A step that asks for everything in the row, and for nothing else, explains the row. -/
theorem explains_of_step {params : Params} {r : Row} (hvalid : (r.step params).bus.invalid = false)
    (hused : (r.step params).bus.allUsed = true) :
    Explains params r.state.machine r.fetch r.data r.host (r.step params).result
      (r.step params).machine (r.step params).bus.stored := by
  obtain ⟨state, fetch, data, host⟩ := r
  rw [step_eq] at hvalid hused ⊢
  simp only [evidence] at hvalid hused ⊢
  cases hf : Machine.canFetch params state.machine.cpu.pc with
  | false =>
    rw [Machine.step_of_not_canFetch hf] at hused ⊢
    simp only [Evidence.allUsed, Bool.and_eq_true, decide_eq_true_eq, eq_comm (a := false),
      Option.isSome_eq_false_iff, Option.isNone_iff_eq_none] at hused
    obtain ⟨⟨rfl, rfl⟩, rfl⟩ := hused
    exact .outside hf
  | true =>
    obtain ⟨f, rfl, hpc, -⟩ := Evidence.fetch_of_step hf hvalid
    rw [Evidence.step_of_fetch hf rfl hpc rfl] at hvalid hused ⊢
    cases hp : state.machine.plan params f.value with
    | error reason =>
      rw [hp] at hused
      simp [Evidence.allUsed] at hused
      obtain ⟨rfl, rfl⟩ := hused
      exact .faults hf hpc hp
    | ok effect =>
      rw [hp] at hvalid hused
      cases effect with
      | finish outcome next =>
        simp [Evidence.allUsed, Effect.run] at hused
        obtain ⟨rfl, rfl⟩ := hused
        exact .finish hf hpc hp
      | load addr next =>
        obtain ⟨d, rfl, rfl, -⟩ := Evidence.load_of_loadWord hvalid
        simp only [Evidence.run_load] at hused ⊢
        simp [Evidence.allUsed] at hused
        exact hused ▸ .load hf hpc hp
      | store addr merge next =>
        obtain ⟨d, rfl, rfl, -, -, hnew⟩ := Evidence.store_of_run hvalid
        simp only [Evidence.run_store _ _ _ hnew] at hused ⊢
        simp [Evidence.allUsed] at hused
        exact hused ▸ .store hf hpc hp hnew
      | call request next =>
        cases host with
        | none => simp [Effect.run, Evidence.bus, Evidence.reply, Evidence.refuse] at hvalid
        | some reply =>
          simp [Evidence.allUsed, Effect.run, Evidence.bus, Evidence.reply] at hused
          exact hused ▸ .call hf hpc hp

/-- A row is replayed if its words are authentic and it holds what its instruction asks for. -/
theorem replay_eq_ok_iff {params : Params} {r : Row} {result : Except FaultReason StepOutcome}
    {next : SystemState} : r.replay params = .ok (result, next) ↔
      r.fetchIsAuthentic params.merkleDepth = true ∧ r.dataIsAuthentic params.merkleDepth = true ∧
      ∃ m stored root, Explains params r.state.machine r.fetch r.data r.host result m stored ∧
        r.rootAfter stored = .ok root ∧ next = .of m root := by
  have hreplay : r.replay params =
      if r.fetchIsAuthentic params.merkleDepth = false then .error .fetchUnauthenticated
      else if r.dataIsAuthentic params.merkleDepth = false then .error .dataUnauthenticated
      else if (r.step params).bus.invalid = true then .error .outsideWitness
      else if (r.step params).bus.allUsed = false then .error .unusedWitness
      else (r.rootAfter (r.step params).bus.stored).map fun root =>
        ((r.step params).result, .of (r.step params).machine root) := by
    simp only [replay, bind, Except.bind, throw, throwThe, MonadExceptOf.throw, pure, Except.pure,
      Bool.not_eq_true']
    split_ifs <;> rfl
  rw [hreplay]
  constructor
  · intro h
    split_ifs at h with hfetch hdata hinvalid hused
    simp only [Bool.not_eq_false, Bool.not_eq_true] at hfetch hdata hinvalid hused
    cases hroot : r.rootAfter (r.step params).bus.stored with
    | error cause => simp [hroot, Except.map] at h
    | ok root =>
      simp only [hroot, Except.map, Except.ok.injEq, Prod.mk.injEq] at h
      obtain ⟨rfl, rfl⟩ := h
      exact ⟨hfetch, hdata, _, _, root, explains_of_step hinvalid hused, hroot, rfl⟩
  · rintro ⟨hfetch, hdata, m, stored, root, hexplains, hroot, rfl⟩
    obtain ⟨rfl, rfl, rfl, hinvalid, hused⟩ := step_of_explains hexplains
    simp [hfetch, hdata, hinvalid, hused, hroot, Except.map]

/-- A row that is replayed holds an answer of the host exactly when its instruction asks for one. -/
theorem isSome_host_of_replay {params : Params} {r : Row}
    {result : Except FaultReason StepOutcome × SystemState} (h : r.replay params = .ok result) :
    r.host.isSome = (r.request params).isSome := by
  obtain ⟨result, next⟩ := result
  obtain ⟨-, -, m, stored, root, hexplains, -, -⟩ := replay_eq_ok_iff.mp h
  obtain ⟨state, fetch, data, host⟩ := r
  cases hexplains with
  | outside => rfl
  | faults _ _ hp | finish _ _ hp | load _ _ hp | store _ _ hp _ | call _ _ hp =>
    simp [request, Machine.request, hp, Effect.asks]

/-- A row whose instruction faults holds no answer of the host. -/
theorem host_eq_none_of_replay {params : Params} {r : Row} {reason : FaultReason}
    {next : SystemState} (h : r.replay params = .ok (.error reason, next)) : r.host = none := by
  obtain ⟨-, -, m, stored, root, hexplains, -, -⟩ := replay_eq_ok_iff.mp h
  obtain ⟨state, fetch, data, host⟩ := r
  cases hexplains <;> rfl

end Row

/-! ### Authentic words -/

theorem Memory.HasLayout.merkleDepth_eq {m : Memory} {params : Params} (h : m.HasLayout params) :
    params.merkleDepth = Memory.treeDepth m.memoryBits := by
  rw [Params.merkleDepth, Memory.treeDepth, h.memoryBits_eq]

/-- The byte strings that are hashed in the tree of a memory. -/
def Memory.TreeMessage (m : Memory) : Bytes → Prop :=
  Merkle.TreeMessage m.wordAt (Memory.treeDepth m.memoryBits)

/-- An authenticated word is the word in memory, and its path is the path there, unless the byte
strings that are hashed for the path and in the tree of the memory collide. -/
theorem MerklePath.eq_of_authenticates {hashed : Bytes → Prop} (hfree : CollisionFree hashed)
    {m : Memory} {params : Params} (hm : m.WellFormedFor params) {path : MerklePath}
    {addr value : UInt32} (hpath : ∀ x ∈ path.messages (Memory.wordIndex addr) value, hashed x)
    (htree : ∀ x, m.TreeMessage x → hashed x)
    (h : path.authenticates m.root params.merkleDepth addr value = true) :
    m.IsWordAddr addr ∧ value = m.loadWord addr ∧ path = m.path addr := by
  simp only [authenticates, Bool.and_eq_true, decide_eq_true_eq] at h
  obtain ⟨halign, hverify⟩ := h
  rw [hm.merkleDepth_eq, hm.root_eq] at hverify
  obtain ⟨hindex, hvalue, hpath⟩ := eq_of_verifyWord hfree hpath htree hverify
  have haligned : addr.toNat % 4 = 0 := by
    have := congrArg UInt32.toNat halign
    rwa [UInt32.toNat_mod] at this
  have haddr : m.IsWordAddr addr := by
    refine ⟨haligned, ?_⟩
    have := hm.size_eq
    rw [Memory.wordIndex] at hindex
    omega
  exact ⟨haddr, hvalue.trans (haddr.wordAt_wordIndex hm.toFits), hpath.trans (hm.path_eq addr).symm⟩

/-- The word that is there is authenticated by its path. -/
theorem Memory.WellFormedFor.authenticates {m : Memory} {params : Params}
    (hm : m.WellFormedFor params) {addr : UInt32} (ha : m.IsWordAddr addr) :
    (m.path addr).authenticates m.root params.merkleDepth addr (m.loadWord addr) = true := by
  have halign : addr % 4 = 0 := by
    apply UInt32.toNat_inj.mp
    rw [UInt32.toNat_mod]
    exact ha.aligned
  have hverify := MerklePath.verifyWord_fullPath m.wordAt (ha.wordIndex_lt hm.toFits)
  rw [ha.wordAt_wordIndex hm.toFits, ← hm.root_eq, ← hm.path_eq, ← hm.merkleDepth_eq] at hverify
  simp [MerklePath.authenticates, halign, hverify]

/-- What is hashed when the path of a word is checked is hashed in the tree. -/
theorem Memory.WellFormedFor.treeMessage_of_mem_path {m : Memory} {params : Params}
    (hm : m.WellFormedFor params) {addr : UInt32} (ha : m.IsWordAddr addr) {x : Bytes}
    (hx : x ∈ (m.path addr).messages (wordIndex addr) (m.loadWord addr)) : m.TreeMessage x := by
  rw [hm.path_eq, ← ha.wordAt_wordIndex hm.toFits] at hx
  exact MerklePath.treeMessage_of_mem_messages (ha.wordIndex_lt hm.toFits) hx

/-- The path of a word predicts the root after a store. -/
theorem Memory.WellFormedFor.rootForWord_path {m : Memory} {params : Params}
    (hm : m.WellFormedFor params) {addr : UInt32} (ha : m.IsWordAddr addr) (value : UInt32) :
    (m.path addr).rootForWord (wordIndex addr) value = (m.storeWord addr value).root := by
  rw [hm.path_eq, MerklePath.rootForWord_fullPath _ (ha.wordIndex_lt hm.toFits),
    (hm.storeWord ha value).root_eq, hm.toFits.wordAt_storeWord ha]
  rfl

/-! ### Rows and steps -/

namespace Row

/-- The byte strings that are hashed when the words of a row are checked. -/
def pathMessages (r : Row) : List Bytes :=
  (r.fetch.toList.flatMap fun f => f.path.messages (Memory.wordIndex f.addr) f.value) ++
    r.data.toList.flatMap fun d => d.path.messages (Memory.wordIndex d.addr) d.old

/-- The replay of a row is the step of a machine in the state of the row, whose host gives the
answer of the row, unless the byte strings that are hashed on both sides collide. -/
theorem follow_of_replay {hashed : Bytes → Prop} (hfree : CollisionFree hashed) {params : Params}
    {p : Playback} (hm : p.memory.WellFormedFor params) {r : Row} (hstate : p.state = r.state)
    {rest : List HostReply} (hreplies : p.replies = r.host.toList ++ rest)
    (hpath : ∀ x ∈ r.pathMessages, hashed x) (htree : ∀ x, p.memory.TreeMessage x → hashed x)
    {result : Except FaultReason StepOutcome} {next : SystemState}
    (h : r.replay params = .ok (result, next)) :
    ∃ q, p.follow params = (result, q) ∧ q.state = next ∧ q.replies = rest := by
  obtain ⟨hfetch, hdata, m, stored, root, hexplains, hroot, rfl⟩ := replay_eq_ok_iff.mp h
  obtain ⟨state, fetch, data, host⟩ := r
  obtain ⟨machine, memory, replies⟩ := p
  subst hstate
  have hfetch' (f : FetchWitness) (hf : fetch = some f) : f.value = memory.loadWord f.addr := by
    subst hf
    refine (MerklePath.eq_of_authenticates hfree hm ?_ htree hfetch).2.1
    intro x hx
    exact hpath x (List.mem_append_left _ (by simpa using hx))
  have hdata' (d : DataWitness) (hd : data = some d) :
      memory.IsWordAddr d.addr ∧ d.old = memory.loadWord d.addr ∧ d.path = memory.path d.addr := by
    subst hd
    refine MerklePath.eq_of_authenticates hfree hm ?_ htree hdata
    intro x hx
    exact hpath x (List.mem_append_right _ (by simpa using hx))
  simp only [Playback.state, SystemState.machine_of] at hexplains
  have hkeep (hd : data = none) : root = memory.root := by
    subst hd
    exact (Except.ok.inj hroot).symm
  simp only at hreplies
  subst hreplies
  cases hexplains with
  | outside hf =>
    rw [hkeep rfl]
    exact ⟨_, Playback.follow_of_not_canFetch hf, rfl, rfl⟩
  | @faults f _ hf hpc hp =>
    rw [hfetch' f rfl, hpc] at hp
    rw [hkeep rfl]
    exact ⟨_, Playback.follow_of_plan_error hf hp, rfl, rfl⟩
  | @finish f _ _ hf hpc hp =>
    rw [hfetch' f rfl, hpc] at hp
    rw [hkeep rfl]
    have hfollow := Playback.follow_of_plan_ok (p := ⟨machine, memory, rest⟩) hf hp
    exact ⟨_, hfollow, rfl, rfl⟩
  | @load f d next hf hpc hp =>
    rw [hfetch' f rfl, hpc] at hp
    obtain ⟨ha, hold, -⟩ := hdata' d rfl
    have hnew : d.new = d.old ∧ root = memory.root := by
      simp only [rootAfter, Bool.false_eq_true, if_false] at hroot
      split at hroot
      · simp at hroot
      · rename_i hne
        exact ⟨not_not.mp hne, (Except.ok.inj hroot).symm⟩
    rw [hnew.2, hold]
    have hfollow := Playback.follow_of_plan_ok (p := ⟨machine, memory, rest⟩) hf hp
    exact ⟨_, hfollow, rfl, rfl⟩
  | @store f d merge next hf hpc hp hnew =>
    rw [hfetch' f rfl, hpc] at hp
    obtain ⟨ha, hold, hdpath⟩ := hdata' d rfl
    have hroot' : root = (memory.storeWord d.addr (merge (memory.loadWord d.addr))).root := by
      rw [← hm.rootForWord_path ha, ← hdpath, ← hold, ← hnew]
      exact (Except.ok.inj hroot).symm
    rw [hroot']
    have hfollow := Playback.follow_of_plan_ok (p := ⟨machine, memory, rest⟩) hf hp
    exact ⟨_, hfollow, rfl, rfl⟩
  | @call f reply request next hf hpc hp =>
    rw [hfetch' f rfl, hpc] at hp
    rw [hkeep rfl]
    have hfollow := Playback.follow_of_plan_ok (p := ⟨machine, memory, reply :: rest⟩) hf hp
    exact ⟨_, hfollow, rfl, rfl⟩

/-- The instruction of a row asks what the next instruction of a machine in its state asks, unless
the byte strings that are hashed on both sides collide. -/
theorem request_eq_of_replay {hashed : Bytes → Prop} (hfree : CollisionFree hashed)
    {params : Params} {p : Playback} (hm : p.memory.WellFormedFor params) {r : Row}
    (hstate : p.state = r.state) (hpath : ∀ x ∈ r.pathMessages, hashed x)
    (htree : ∀ x, p.memory.TreeMessage x → hashed x)
    {result : Except FaultReason StepOutcome × SystemState} (h : r.replay params = .ok result) :
    r.request params = p.request params := by
  obtain ⟨result, next⟩ := result
  obtain ⟨hfetch, -, m, stored, root, hexplains, -, -⟩ := replay_eq_ok_iff.mp h
  obtain ⟨state, fetch, data, host⟩ := r
  obtain ⟨machine, memory, replies⟩ := p
  subst hstate
  have hword {f : FetchWitness} (hf : fetch = some f) (hpc : f.addr = machine.cpu.pc)
      (hcan : Machine.canFetch params machine.cpu.pc = true) :
      request params ⟨Playback.state ⟨machine, memory, replies⟩, fetch, data, host⟩ =
        Playback.request params ⟨machine, memory, replies⟩ := by
    subst hf
    have hvalue : f.value = memory.loadWord machine.cpu.pc := by
      rw [← hpc]
      refine (MerklePath.eq_of_authenticates hfree hm ?_ htree hfetch).2.1
      intro x hx
      exact hpath x (List.mem_append_left _ (by simpa using hx))
    simp [request, Playback.request, Playback.state, hcan, hvalue]
  cases hexplains with
  | outside hf => exact (if_neg (Bool.eq_false_iff.mp hf)).symm
  | faults hf hpc _ | finish hf hpc _ | load hf hpc _ | store hf hpc _ _ | call hf hpc _ =>
    exact hword rfl hpc hf

end Row

end ReplayVM
