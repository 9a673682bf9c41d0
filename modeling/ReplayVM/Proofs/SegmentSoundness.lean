import ReplayVM.Proofs.FormatLaws
import ReplayVM.Proofs.HashEvaluation
import ReplayVM.Proofs.MemoryConstruction
import ReplayVM.Proofs.RowReplay
import ReplayVM.Proofs.Verification

/-!
# Soundness of segment receipts

An accepted receipt says the truth about every machine that starts in the claimed state. The machine
has live memory behind the bus and its host gives the answers of the rows; nothing is assumed of the
rows, of their paths or of the answers. The rows are followed one by one: the state of a row is the
state of the live machine, so the replay of the row is its next step, and the commitment that ties
the row to the one behind carries the equality of states over.

The only assumption is that the byte strings hashed on the two sides do not collide: those hashed
for states and paths by the verifier, for the start state of the machine, and in the trees of the
memories that the machine passes through.

## Main definitions

* `ExitCode.EndsWith`, `SegmentClaim.TrueOf`: a claim as a statement about a live machine.
* `Playback.Along`: a playback along rows.
* `SegmentSeal.replies`: the answers of the host in a seal.
* `SegmentClaim.HashedInSeal`, `Playback.HashedAlong`: the byte strings that are hashed.

## Main results

* `SegmentReceipt.trueOf_of_verify`: the claim of an accepted receipt is true.
-/

namespace ReplayVM

open Merkle

/-! ### Claims about machines -/

/-- The last outcome of a run, if there is one, that an exit stands for. -/
def ExitCode.EndsWith : ExitCode → Option StepOutcome → Prop
  | .halted code, last => last = some (.halted code)
  | .paused code, last => last = some (.paused code)
  | .systemSplit, last => last = some .next ∨ last = some .yielded
  | .fault _, last => last = none ∨ last = some .next

/-- A claim that is true of a run of a live machine: the run has the claimed length and ends in the
claimed way and state. A fault of an instruction is what the next step gives. -/
structure SegmentClaim.TrueOf (c : SegmentClaim) (params : Params) (p : Playback)
    (outcomes : List StepOutcome) (q : Playback) : Prop where
  steps : Steps params p outcomes q
  length_outcomes : outcomes.length = c.instructionCount.toNat
  goes_on : ∀ outcome ∈ outcomes.dropLast, outcome = .next
  ends : c.exitCode.EndsWith outcomes.getLast?
  faults : ∀ reason, c.exitCode = .fault reason → reason ≠ .sessionLimitExceeded →
    q.follow params = (.error reason, q)
  end_eq : q.state.commitment = c.endCommitment
  output_eq : q.machine.output.digest = c.outputDigest

/-- The answers of the host in the rows of a seal. The last row holds the end state, and its answer
is never asked for. -/
def SegmentSeal.replies (s : SegmentSeal) : List HostReply := s.rows.dropLast.filterMap Row.host

/-! ### What is hashed -/

/-- The rows of a seal that are replayed: the last one only for the fault of an instruction. -/
def SegmentClaim.replayed (c : SegmentClaim) (rows : List Row) : List Row :=
  if c.exitCode.finalFault.isSome then rows else rows.dropLast

/-- The byte strings that the verifier hashes for the states and the paths of a seal. -/
def SegmentClaim.HashedInSeal (c : SegmentClaim) (s : SegmentSeal) : Bytes → Prop := fun x =>
  (∃ row ∈ s.rows, x = row.state.preimage.bytes) ∨
  (∃ row ∈ s.rows.dropLast, ∃ result next,
    row.replay s.params = .ok (result, next) ∧ x = next.preimage.bytes) ∨
  (∃ row ∈ c.replayed s.rows, x ∈ row.pathMessages)

/-- The byte strings that are hashed in the trees of the memories that a machine passes through in
a number of steps. -/
def Playback.HashedAlong (params : Params) (p : Playback) (count : Nat) : Bytes → Prop := fun x =>
  ∃ outcomes q, Steps params p outcomes q ∧ outcomes.length ≤ count ∧ q.memory.TreeMessage x

theorem Playback.hashedAlong_of_treeMessage {params : Params} {p : Playback} {count : Nat}
    {x : Bytes} (h : p.memory.TreeMessage x) : p.HashedAlong params count x :=
  ⟨[], p, .done p, Nat.zero_le _, h⟩

theorem Playback.HashedAlong.mono {params : Params} {p : Playback} {count count' : Nat}
    (hle : count ≤ count') {x : Bytes} (h : p.HashedAlong params count x) :
    p.HashedAlong params count' x := by
  obtain ⟨outcomes, q, hq, hlen, hx⟩ := h
  exact ⟨outcomes, q, hq, Nat.le_trans hlen hle, hx⟩

theorem Playback.HashedAlong.of_steps {params : Params} {p q : Playback}
    {outcomes : List StepOutcome} {count : Nat} {x : Bytes} (hsteps : Steps params p outcomes q)
    (h : q.HashedAlong params count x) : p.HashedAlong params (outcomes.length + count) x := by
  obtain ⟨outcomes', r, hr, hlen, hx⟩ := h
  refine ⟨outcomes ++ outcomes', r, hsteps.append hr, ?_, hx⟩
  rw [List.length_append]
  omega

/-! ### Rows and runs -/

/-- A run of a machine along rows: before each step the machine is in the state of a row, whose
instruction asks what the step asks, and the step takes the answer of the row. -/
inductive Playback.Along (params : Params) :
    Playback → List Row → List StepOutcome → Playback → Prop where
  | done (p : Playback) : Along params p [] [] p
  | step {p q r : Playback} {row : Row} {rows : List Row} {outcome : StepOutcome}
      {outcomes : List StepOutcome} (hstate : p.state = row.state)
      (hrequest : row.request params = p.request params)
      (hhost : row.host.isSome = (row.request params).isSome)
      (hreplies : p.replies = row.host.toList ++ q.replies)
      (h : p.follow params = (.ok outcome, q)) (rest : Along params q rows outcomes r) :
      Along params p (row :: rows) (outcome :: outcomes) r

theorem Playback.Along.steps {params : Params} {p q : Playback} {rows : List Row}
    {outcomes : List StepOutcome} (h : p.Along params rows outcomes q) :
    Steps params p outcomes q := by
  induction h with
  | done p => exact .done p
  | step _ _ _ _ h _ ih => exact .step h ih

/-- A machine in the state of the first of some rows that follow each other runs along them, unless
the byte strings that are hashed on both sides collide. -/
theorem SegmentClaim.along_of_rowsFollow {hashed : Bytes → Prop} (hfree : CollisionFree hashed)
    {c : SegmentClaim} {params : Params} {index : Nat} {first last : Row} {rows : List Row}
    (hrows : c.RowsFollow params index (first :: rows))
    (hlast : (first :: rows).getLast? = some last)
    {p : Playback} (hm : p.memory.WellFormedFor params) (hstate : p.state = first.state)
    {rest : List HostReply}
    (hreplies : p.replies = (first :: rows).dropLast.filterMap Row.host ++ rest)
    (hstates : ∀ row ∈ first :: rows, hashed row.state.preimage.bytes)
    (hnexts : ∀ row ∈ (first :: rows).dropLast, ∀ result next,
      row.replay params = .ok (result, next) → hashed next.preimage.bytes)
    (hpaths : ∀ row ∈ (first :: rows).dropLast, ∀ x ∈ row.pathMessages, hashed x)
    (htrees : ∀ x, p.HashedAlong params rows.length x → hashed x) :
    ∃ outcomes q, p.Along params (first :: rows).dropLast outcomes q ∧
      outcomes.length = rows.length ∧
      (∀ i outcome, outcomes[i]? = some outcome → c.allows (index + i) outcome = true) ∧
      q.state = last.state ∧ q.replies = rest := by
  induction rows generalizing first index p with
  | nil =>
    obtain rfl : first = last := by simpa using hlast
    exact ⟨[], p, .done p, rfl, by simp, hstate, hreplies⟩
  | cons next rows ih =>
    obtain ⟨⟨outcome, state, hreplay, hallows, hcommitment⟩, hrest⟩ := hrows
    have hmem : first ∈ (first :: next :: rows).dropLast := by simp
    have hsub (row : Row) (h : row ∈ (next :: rows).dropLast) :
        row ∈ (first :: next :: rows).dropLast := by
      rw [List.dropLast_cons_of_ne_nil (by simp)]
      exact List.mem_cons_of_mem _ h
    rw [List.dropLast_cons_of_ne_nil (by simp)] at hreplies
    have hfirst : p.replies =
        first.host.toList ++ ((next :: rows).dropLast.filterMap Row.host ++ rest) := by
      rw [hreplies, List.filterMap_cons]
      cases first.host <;> rfl
    have htree : ∀ x, p.memory.TreeMessage x → hashed x := fun x hx =>
      htrees x (Playback.hashedAlong_of_treeMessage hx)
    obtain ⟨q, hfollow, hqstate, hqreplies⟩ :=
      Row.follow_of_replay hfree hm hstate hfirst (hpaths first hmem) htree hreplay
    have hrequest := Row.request_eq_of_replay hfree hm hstate (hpaths first hmem) htree hreplay
    have hone : Steps params p [outcome] q := .step hfollow (.done q)
    -- The commitment ties the state after the step to the state of the next row.
    have hnext : q.state = next.state := by
      rw [hqstate]
      exact SystemState.eq_of_commitment_eq hfree (hnexts first hmem _ _ hreplay)
        (hstates next (by simp)) hcommitment
    obtain ⟨outcomes, r, hr, hlen, hall, hrstate, hrreplies⟩ := ih hrest
      (by rwa [List.getLast?_cons_cons] at hlast) (hone.wellFormedFor hm) hnext hqreplies
      (fun row h => hstates row (List.mem_cons_of_mem _ h))
      (fun row h => hnexts row (hsub row h)) (fun row h => hpaths row (hsub row h))
      fun x hx => htrees x (by
        have := hx.of_steps hone
        rwa [List.length_singleton, Nat.add_comm] at this)
    refine ⟨outcome :: outcomes, r, ?_, by simp [hlen], ?_, hrstate, hrreplies⟩
    · rw [List.dropLast_cons_of_ne_nil (by simp)]
      exact .step hstate hrequest (Row.isSome_host_of_replay hreplay) (hqreplies ▸ hfirst)
        hfollow hr
    · intro i o ho
      cases i with
      | zero =>
        obtain rfl := Option.some.inj ho
        exact hallows
      | succ i =>
        rw [show index + (i + 1) = index + 1 + i by omega]
        exact hall i o ho

/-! ### Exits -/

theorem ExitCode.endsWith_of_allowsLast {exit : ExitCode} {outcome : StepOutcome}
    (h : exit.allowsLast outcome = true) : exit.EndsWith (some outcome) := by
  cases exit <;> simpa [allowsLast, EndsWith] using h

theorem ExitCode.endsWith_none {exit : ExitCode} (h : exit.needsInstruction = false) :
    exit.EndsWith none := by
  cases exit <;> simp_all [needsInstruction, EndsWith]

/-- Outcomes that a claim allows one by one end as the claim says. -/
theorem SegmentClaim.endsWith_of_allows {c : SegmentClaim} {outcomes : List StepOutcome}
    (hlen : outcomes.length = c.instructionCount.toNat)
    (hall : ∀ i outcome, outcomes[i]? = some outcome → c.allows i outcome = true)
    (hne : c.exitCode.needsInstruction = true → c.instructionCount ≠ 0) :
    (∀ outcome ∈ outcomes.dropLast, outcome = .next) ∧ c.exitCode.EndsWith outcomes.getLast? := by
  refine ⟨fun outcome h => ?_, ?_⟩
  · obtain ⟨i, hi, rfl⟩ := List.getElem_of_mem h
    rw [List.length_dropLast] at hi
    rw [List.getElem_dropLast]
    have := hall i _ (List.getElem?_eq_getElem (by omega))
    rw [allows, if_neg (by omega)] at this
    simpa using this
  · cases h : outcomes.getLast? with
    | none =>
      rw [List.getLast?_eq_none_iff] at h
      subst h
      refine ExitCode.endsWith_none (Bool.eq_false_iff.mpr fun hneeds => hne hneeds ?_)
      exact UInt32.toNat_inj.mp hlen.symm
    | some outcome =>
      have hpos : outcomes ≠ [] := by
        rintro rfl
        simp at h
      rw [List.getLast?_eq_getElem?] at h
      have := hall _ _ h
      rw [allows, if_pos] at this
      · exact ExitCode.endsWith_of_allowsLast this
      · have := List.length_pos_iff.mpr hpos
        omega

theorem ExitCode.finalFault_eq_some {reason : FaultReason} (h : reason ≠ .sessionLimitExceeded) :
    (ExitCode.fault reason).finalFault = some reason := by
  cases reason <;> first | rfl | exact absurd rfl h

/-! ### Segments of one instruction -/

/-- A seal of two rows with short paths is read back. -/
theorem SegmentSeal.decode_encode_pair {params : Params} {root : Digest} {row last : Row}
    (hrow : row.HasShortPaths) (hlast : last.HasShortPaths) :
    format.decode (format.encode ⟨params, root, [row, last]⟩) = .ok ⟨params, root, [row, last]⟩ := by
  have hlen : [row, last].length < UInt64.size := show 2 < UInt64.size by decide
  refine (readsBack hlen (List.forall_mem_cons.mpr ⟨hrow, fun r hr => ?_⟩)).decode_encode
  obtain rfl := List.mem_singleton.mp hr
  exact hlast

/-- The claim of one instruction is proven by its row in front of one with the state behind it,
unless it ends in a fault of the instruction behind. -/
theorem SegmentClaim.provenBy_pair {params : Params} (row last : Row) {outcome : StepOutcome}
    {exit : ExitCode} {index : UInt32} (hvalid : params.validate = .ok ())
    (hreplay : row.replay params = .ok (.ok outcome, last.state))
    (hallows : exit.allowsLast outcome = true) (hfault : exit.finalFault = none) :
    ProvenBy ⟨params.configDigest, index, row.state.commitment, last.state.commitment, 1, exit,
        last.state.outputDigest⟩
      ⟨params, traceRoot ([row, last].map Row.digest), [row, last]⟩ where
  params_valid := hvalid
  configDigest_eq := rfl
  count_le := by
    rw [Params.maxSegmentCycles, Nat.one_shiftLeft]
    exact Nat.one_le_two_pow
  length_rows := rfl
  count_ne_zero _ := show (1 : UInt32) ≠ 0 by decide
  traceRoot_eq := rfl
  start_eq := by
    rintro first ⟨⟩
    rfl
  end_eq := by
    rintro last ⟨⟩
    rfl
  output_eq := by
    rintro last ⟨⟩
    rfl
  rows_follow := ⟨⟨outcome, _, hreplay, hallows, rfl⟩, trivial⟩
  fault_follows last _ reason hreason := absurd (hfault.symm.trans hreason) (by simp)

/-! ### A guest that halts

Two instructions in the smallest address space, each a segment of its own. The hashes of what is
hashed for them are evaluated, so that the assumption on collisions holds here without one. -/

namespace HaltingGuest

/-- The parameters of the guest. -/
def params : Params := { memoryBits := 14 }

/-- The memory of the guest, which loads an exit code and halts. -/
def memory : Memory :=
  ((Memory.empty params).storeWord 0x1000 0x00700513).storeWord 0x1004 0x73

/-- The words of the memory by index. -/
def words : Nat → UInt32 := withWord (withWord (fun _ => 0) 0x400 0x00700513) 0x401 0x73

/-- The machine at its entry point. -/
def start : Machine := Program.machineAt params minMemory

/-- The machine behind its first instruction. -/
def loaded : Machine := (start.setReg .a0 7).advance

/-- The machine at its end. -/
def halted : Machine := loaded.advance

theorem validate_params : params.validate = .ok () := Params.validate_eq_ok_iff.mpr (by decide)

theorem isWordAddr {m : Memory} (h : m.memoryBits = params.memoryBits) {addr : UInt32}
    (halign : addr.toNat % 4 = 0) (hinside : addr.toNat < 1 <<< 14) : m.IsWordAddr addr :=
  ⟨halign, by rw [h]; exact hinside⟩

theorem wellFormedFor_memory : memory.WellFormedFor params where
  toWellFormed :=
    ((Memory.wellFormed_empty validate_params).storeWord (isWordAddr rfl rfl (by decide))
      _).storeWord (isWordAddr rfl rfl (by decide)) _
  pageSize_eq := rfl
  memoryBits_eq := rfl

theorem wordAt_memory : memory.wordAt = words := by
  have hempty := (Memory.wellFormed_empty validate_params).toFits
  have hfirst : (Memory.empty params).IsWordAddr 0x1000 := isWordAddr rfl rfl (by decide)
  rw [memory, (hempty.storeWord hfirst _).wordAt_storeWord (isWordAddr rfl rfl (by decide)),
    hempty.wordAt_storeWord hfirst, Memory.wordAt_empty]
  rfl

theorem loadWord_memory {addr : UInt32} (halign : addr.toNat % 4 = 0)
    (hinside : addr.toNat < 1 <<< 14) :
    memory.loadWord addr = words (Memory.wordIndex addr) := by
  have ha : memory.IsWordAddr addr := isWordAddr rfl halign hinside
  rw [← ha.wordAt_wordIndex wellFormedFor_memory.toFits, wordAt_memory]

/-- The instructions of the guest, with the exits of their segments. -/
inductive Instructs : Machine → Machine → StepOutcome → ExitCode → Prop where
  | load : Instructs start loaded .next .systemSplit
  | halt : Instructs loaded halted (.halted 7) (.halted 7)

variable {m next : Machine} {outcome : StepOutcome} {exit : ExitCode} {index : UInt32}

theorem Instructs.plan_eq (h : Instructs m next outcome exit) :
    Machine.canFetch params m.cpu.pc = true ∧ memory.IsWordAddr m.cpu.pc ∧
      m.plan params (memory.loadWord m.cpu.pc) = .ok (.finish outcome next) := by
  cases h with
  | load =>
    refine ⟨rfl, isWordAddr rfl rfl (by decide), ?_⟩
    rw [loadWord_memory rfl (by decide)]
    rfl
  | halt =>
    refine ⟨rfl, isWordAddr rfl rfl (by decide), ?_⟩
    rw [loadWord_memory rfl (by decide)]
    rfl

theorem Instructs.mem_states (h : Instructs m next outcome exit) :
    m ∈ [start, loaded, halted] ∧ next ∈ [start, loaded, halted] := by
  cases h <;> exact ⟨by simp, by simp⟩

theorem follow_eq (h : Instructs m next outcome exit) (replies : List HostReply) :
    (Playback.mk m memory replies).follow params = (.ok outcome, ⟨next, memory, replies⟩) := by
  obtain ⟨hf, -, hp⟩ := h.plan_eq
  exact Playback.follow_of_plan_ok (p := ⟨m, memory, replies⟩) hf hp

theorem follow_halted (replies : List HostReply) :
    (Playback.mk halted memory replies).follow params =
      (.error (.illegalInstruction halted.cpu.pc 0), ⟨halted, memory, replies⟩) := by
  have hplan : halted.plan params (memory.loadWord halted.cpu.pc) =
      .error (.illegalInstruction halted.cpu.pc 0) := by
    rw [loadWord_memory rfl (by decide)]
    rfl
  have hf : Machine.canFetch params halted.cpu.pc = true := rfl
  exact Playback.follow_of_plan_error (p := ⟨halted, memory, replies⟩) hf hplan

/-- The memory of the guest does not change. -/
theorem memory_of_steps {p q : Playback} {outcomes : List StepOutcome}
    (h : Steps params p outcomes q) (hm : p.machine ∈ [start, loaded, halted])
    (hmemory : p.memory = memory) : q.memory = memory := by
  induction h with
  | done => exact hmemory
  | @step p q r outcome outcomes hfollow _ ih =>
    obtain ⟨m, _, replies⟩ := p
    subst hmemory
    have hnext {m next : Machine} {outcome' : StepOutcome} {exit : ExitCode}
        (h : Instructs m next outcome' exit)
        (hfollow : (Playback.mk m memory replies).follow params = (.ok outcome, q)) :
        r.memory = memory := by
      rw [follow_eq h, Prod.mk.injEq] at hfollow
      obtain ⟨-, rfl⟩ := hfollow
      exact ih h.mem_states.2 rfl
    simp only [List.mem_cons, List.not_mem_nil, or_false] at hm
    rcases hm with rfl | rfl | rfl
    · exact hnext .load hfollow
    · exact hnext .halt hfollow
    · rw [follow_halted] at hfollow
      simp at hfollow

/-! #### Receipts of the guest -/

/-- The row of an instruction. -/
def row (m : Machine) : Row where
  state := .of m memory.root
  fetch := some ⟨m.cpu.pc, memory.loadWord m.cpu.pc, memory.path m.cpu.pc⟩

/-- The rows of the segment of an instruction. -/
def rows (m next : Machine) : List Row := [row m, { state := .of next memory.root }]

/-- The seal of the segment of an instruction. -/
def sealOf (m next : Machine) : SegmentSeal :=
  ⟨params, traceRoot ((rows m next).map Row.digest), rows m next⟩

/-- The receipt of the segment of an instruction. -/
def receipt (index : UInt32) (m next : Machine) (exit : ExitCode) : SegmentReceipt where
  claim := ⟨params.configDigest, index, (SystemState.of m memory.root).commitment,
    (SystemState.of next memory.root).commitment, 1, exit, next.output.digest⟩
  sealBytes := SegmentSeal.format.encode (sealOf m next)

theorem replay_row (h : Instructs m next outcome exit) :
    (row m).replay params = .ok (.ok outcome, .of next memory.root) := by
  obtain ⟨hf, ha, hp⟩ := h.plan_eq
  have hexplains : Row.Explains params m (row m).fetch none none (.ok outcome) next false :=
    .finish hf rfl hp
  refine Row.replay_eq_ok_iff.mpr ⟨?_, ?_, next, false, memory.root, hexplains, ?_, rfl⟩
  · simp only [Row.fetchIsAuthentic, row, Option.all_some, SystemState.memoryRoot_of]
    exact wellFormedFor_memory.authenticates ha
  · simp only [Row.dataIsAuthentic, row, Option.all_none]
  · simp only [Row.rootAfter, row, SystemState.memoryRoot_of]

theorem hasShortPaths_row {r : Row} {addr value : UInt32}
    (hfetch : r.fetch = some ⟨addr, value, memory.path addr⟩) (hdata : r.data = none) :
    r.HasShortPaths := by
  refine ⟨fun f hf => ?_, by simp [hdata]⟩
  obtain rfl := Option.some.inj (hfetch.symm.trans hf)
  rw [wellFormedFor_memory.path_eq, length_fullPath]
  decide

theorem decodeSeal_receipt (index : UInt32) (m next : Machine) (exit : ExitCode) :
    (receipt index m next exit).decodeSeal = .ok (sealOf m next) :=
  SegmentSeal.decode_encode_pair (hasShortPaths_row rfl rfl) ⟨by simp, by simp⟩

theorem provenBy_sealOf (h : Instructs m next outcome exit) :
    (receipt index m next exit).claim.ProvenBy (sealOf m next) := by
  have hexit : exit.allowsLast outcome = true ∧ exit.finalFault = none := by
    cases h <;> exact ⟨rfl, rfl⟩
  exact SegmentClaim.provenBy_pair (row m) { state := .of next memory.root } validate_params
    (replay_row h) hexit.1 hexit.2

theorem verify_receipt (h : Instructs m next outcome exit) :
    (receipt index m next exit).verify = .ok () :=
  SegmentReceipt.verify_eq_ok_iff.mpr ⟨_, decodeSeal_receipt index m next exit, provenBy_sealOf h⟩

theorem startCommitment_receipt (index : UInt32) (m next : Machine) (exit : ExitCode)
    (replies : List HostReply) : (receipt index m next exit).claim.startCommitment =
      (Playback.mk m memory replies).state.commitment := rfl

/-! #### Hashes of the guest -/

/-- The roots of the trees over zeros that are lower than the tree of the guest. -/
def zeros : List Digest := evaluateZeros 11 (Digest.evaluate (Bytes.ofWord 0))

/-- What is hashed in the tree above the second word. -/
def climbed : List Bytes :=
  MerklePath.evaluateClimb (Digest.evaluate (Bytes.ofWord 0x00700513) :: zeros.tail) 0x401
    (Digest.evaluate (Bytes.ofWord 0x73))

/-- What is hashed for the guest: for its parameters, its states and its words, in trees over zeros,
and above the second word. -/
def messages : List Bytes :=
  params.preimage.bytes ::
    ([start, loaded, halted].map fun m =>
      (SystemState.of m (Digest.evaluate (climbed.getLastD []))).preimage.bytes) ++
    [0, 0x00700513, 0x73].map Bytes.ofWord ++
    zeros.map (fun zero => Digest.pairBytes zero zero) ++ climbed

theorem collisionFree_messages : CollisionFree fun x => x ∈ messages :=
  .of_nodup (by decide +kernel)

theorem zeros_eq : zeros = (List.range' 0 12).map zeroNode := by
  rw [zeros, ← Digest.hash_eq_evaluate, ← zerosFrom_eq_evaluateZeros]
  exact zerosFrom_eq 11 0

/-- The siblings on the way up from the second word. -/
theorem fullPath_memory : fullPath memory.wordAt 12 0 0x401 =
    Digest.evaluate (Bytes.ofWord 0x00700513) :: zeros.tail := by
  have hsecond := fullPath_withWord (withWord (fun _ => 0) 0x400 0x00700513) 0x401 0x73 12 0
  have hfirst := fullPath_withWord (fun _ => 0) 0x400 0x00700513 11 1
  rw [wordAt_memory]
  refine hsecond.trans ?_
  rw [zeros_eq, ← Digest.hash_eq_evaluate, fullPath]
  refine congrArg _ (hfirst.trans ?_)
  rw [fullPath_zeros]
  rfl

theorem climbed_eq :
    climbed = (List.range' 1 12).map fun k => fullMessage memory.wordAt k (0x401 >>> k) := by
  have hleaf : Digest.evaluate (Bytes.ofWord 0x73) = fullNode memory.wordAt 0 0x401 := by
    rw [fullNode, wordAt_memory, words, withWord_self, leafHash, Digest.hash_eq_evaluate]
  rw [climbed, ← MerklePath.climbMessages_eq_evaluateClimb, ← fullPath_memory, hleaf,
    MerklePath.climbMessages_fullPath]
  rfl

theorem root_eq : memory.root = Digest.evaluate (climbed.getLastD []) := by
  have hlast : climbed.getLastD [] = fullMessage memory.wordAt 12 0 := by
    rw [climbed_eq]
    rfl
  rw [hlast, ← Digest.hash_eq_evaluate, hash_fullMessage]
  exact wellFormedFor_memory.root_eq

theorem mem_messages_of_state {m : Machine} (h : m ∈ [start, loaded, halted]) :
    (SystemState.of m memory.root).preimage.bytes ∈ messages := by
  rw [root_eq]
  simp only [messages, List.mem_append]
  exact .inl (.inl (.inl (List.mem_cons_of_mem _ (List.mem_map.mpr ⟨m, h, rfl⟩))))

theorem mem_messages_of_word {w : UInt32} (h : w ∈ [0, 0x00700513, 0x73]) :
    Bytes.ofWord w ∈ messages := by
  simp only [messages, List.mem_append]
  exact .inl (.inl (.inr (List.mem_map_of_mem h)))

/-- What is hashed in the tree: the words, and their parents on the way up from the second word and
beside it, where all is zero. -/
theorem mem_messages_of_treeMessage {x : Bytes} (h : memory.TreeMessage x) : x ∈ messages := by
  obtain ⟨height, index, hheight, hindex, rfl⟩ := h
  change height ≤ 12 at hheight
  change index < 1 <<< (12 - height) at hindex
  cases height with
  | zero =>
    refine mem_messages_of_word ?_
    rw [wordAt_memory]
    unfold words withWord
    split_ifs <;> simp
  | succ k =>
    rw [messages, List.mem_append, List.mem_append]
    by_cases habove : 0x401 >>> (k + 1) = index
    · right
      rw [climbed_eq, ← habove]
      exact List.mem_map.mpr ⟨k + 1, List.mem_range'_1.mpr ⟨by omega, by omega⟩, rfl⟩
    · left
      right
      have hk : k < 11 := by
        by_contra hge
        obtain rfl : k = 11 := by omega
        exact habove (by omega)
      have hfirst : 0x400 >>> (k + 1) ≠ index := by
        rwa [Nat.shiftRight_succ_inside] at habove ⊢
      rw [wordAt_memory, words, fullMessage_withWord_of_ne _ _ _ habove,
        fullMessage_withWord_of_ne _ _ _ hfirst, fullMessage, fullNode_zeros, fullNode_zeros,
        zeros_eq]
      exact List.mem_map_of_mem (List.mem_map_of_mem (List.mem_range'_1.mpr ⟨by omega, by omega⟩))

theorem mem_messages_of_hashedAlong {m : Machine} (hm : m ∈ [start, loaded, halted])
    {replies : List HostReply} {count : Nat} {x : Bytes}
    (h : (Playback.mk m memory replies).HashedAlong params count x) : x ∈ messages := by
  obtain ⟨outcomes, q, hsteps, -, hx⟩ := h
  rw [memory_of_steps hsteps hm rfl] at hx
  exact mem_messages_of_treeMessage hx

theorem mem_messages_of_hashedInSeal (h : Instructs m next outcome exit) {x : Bytes}
    (hx : (receipt index m next exit).claim.HashedInSeal (sealOf m next) x) : x ∈ messages := by
  have hreplayed : (receipt index m next exit).claim.replayed (sealOf m next).rows = [row m] := by
    cases h <;> rfl
  obtain ⟨hm, hnext⟩ := h.mem_states
  rcases hx with ⟨r, hr, rfl⟩ | ⟨r, hr, result, state, hreplay, rfl⟩ | ⟨r, hr, hx⟩
  · simp only [sealOf, rows, List.mem_cons, List.not_mem_nil, or_false] at hr
    rcases hr with rfl | rfl
    · exact mem_messages_of_state hm
    · exact mem_messages_of_state hnext
  · obtain rfl : r = row m := List.mem_singleton.mp hr
    obtain ⟨-, rfl⟩ := Prod.mk.inj (Except.ok.inj ((replay_row h).symm.trans hreplay))
    exact mem_messages_of_state hnext
  · rw [hreplayed, List.mem_singleton] at hr
    subst hr
    obtain ⟨-, ha, -⟩ := h.plan_eq
    refine mem_messages_of_treeMessage (wellFormedFor_memory.treeMessage_of_mem_path ha ?_)
    simpa [Row.pathMessages, row] using hx

end HaltingGuest

/-! ### Receipts -/

/-- The byte strings that are hashed when a seal is compared with a machine: for its start state, by
the verifier, and in the trees along the claimed instructions. -/
def SegmentClaim.Hashed (c : SegmentClaim) (s : SegmentSeal) (p : Playback) : Bytes → Prop :=
  fun x => x = p.state.preimage.bytes ∨ c.HashedInSeal s x ∨
    p.HashedAlong s.params c.instructionCount.toNat x

/-- The machine in the state of a row that gives the fault of a claim has this fault, unless the
byte strings that are hashed on both sides collide. -/
theorem SegmentClaim.FaultFollows.follow_eq {c : SegmentClaim} {params : Params} {last : Row}
    (h : c.FaultFollows params last) {reason : FaultReason} (hexit : c.exitCode = .fault reason)
    (hreason : reason ≠ .sessionLimitExceeded) {hashed : Bytes → Prop}
    (hfree : CollisionFree hashed) {q : Playback} (hm : q.memory.WellFormedFor params)
    (hstate : q.state = last.state) (hpath : ∀ x ∈ last.pathMessages, hashed x)
    (htree : ∀ x, q.memory.TreeMessage x → hashed x) : q.follow params = (.error reason, q) := by
  obtain ⟨next, hreplay⟩ := h reason (hexit ▸ ExitCode.finalFault_eq_some hreason)
  have hreplies : q.replies = last.host.toList ++ q.replies := by
    rw [Row.host_eq_none_of_replay hreplay]
    rfl
  obtain ⟨q', hfollow, -, -⟩ := Row.follow_of_replay hfree hm hstate hreplies hpath htree hreplay
  have hkeep := Playback.follow_of_error (congrArg Prod.fst hfollow)
  rw [hfollow] at hkeep
  exact hkeep ▸ hfollow

/-- A proven claim is true of every machine in the claimed start state, which runs along the rows
and ends in the state of the last one. -/
theorem SegmentClaim.ProvenBy.exists_along {c : SegmentClaim} {s : SegmentSeal}
    (hproven : c.ProvenBy s) {hashed : Bytes → Prop} (hfree : CollisionFree hashed) {p : Playback}
    (hhashed : ∀ x, c.Hashed s p x → hashed x) (hm : p.memory.WellFormedFor s.params)
    (hstart : p.state.commitment = c.startCommitment) {rest : List HostReply}
    (hreplies : p.replies = s.replies ++ rest) :
    ∃ outcomes q, p.Along s.params s.rows.dropLast outcomes q ∧ c.TrueOf s.params p outcomes q ∧
      q.replies = rest ∧ ∃ row ∈ s.rows, q.state = row.state := by
  have hnil := List.ne_nil_of_length_eq_add_one hproven.length_rows
  obtain ⟨first, rows, hrows⟩ := List.exists_cons_of_ne_nil hnil
  obtain ⟨last, hlast⟩ : ∃ last, s.rows.getLast? = some last :=
    ⟨_, List.getLast?_eq_some_getLast hnil⟩
  have hlen : rows.length = c.instructionCount.toNat := by
    have := hproven.length_rows
    rw [hrows, List.length_cons] at this
    omega
  have hmem : ∀ row ∈ s.rows, hashed row.state.preimage.bytes := fun row h =>
    hhashed _ (.inr (.inl (.inl ⟨row, h, rfl⟩)))
  have hpaths : ∀ row ∈ c.replayed s.rows, ∀ x ∈ row.pathMessages, hashed x := fun row h x hx =>
    hhashed _ (.inr (.inl (.inr (.inr ⟨row, h, hx⟩))))
  have hreplayed : ∀ row ∈ s.rows.dropLast, row ∈ c.replayed s.rows := by
    intro row h
    unfold replayed
    split
    · exact (List.dropLast_sublist _).subset h
    · exact h
  have hstate : p.state = first.state := by
    refine SystemState.eq_of_commitment_eq hfree (hhashed _ (.inl rfl))
      (hmem first (by simp [hrows])) (hstart.trans ?_)
    exact (hproven.start_eq first (by simp [hrows])).symm
  obtain ⟨outcomes, q, halong, hcount, hall, hqstate, hqreplies⟩ :=
    c.along_of_rowsFollow hfree (hrows ▸ hproven.rows_follow) (hrows ▸ hlast) hm hstate
      (hreplies.trans (by rw [SegmentSeal.replies, hrows])) (hrows ▸ hmem)
      (fun row h result next hreplay =>
        hhashed _ (.inr (.inl (.inr (.inl ⟨row, hrows ▸ h, result, next, hreplay, rfl⟩)))))
      (fun row h => hpaths row (hreplayed row (hrows ▸ h)))
      (fun x hx => hhashed _ (.inr (.inr (hlen ▸ hx))))
  rw [hlen] at hcount
  rw [← hrows] at halong
  have hsteps := halong.steps
  obtain ⟨hgoes, hends⟩ := c.endsWith_of_allows hcount
    (fun i outcome h => Nat.zero_add i ▸ hall i outcome h) hproven.count_ne_zero
  refine ⟨outcomes, q, halong, ⟨hsteps, hcount, hgoes, hends, ?_, ?_, ?_⟩, hqreplies, last,
    List.mem_of_getLast? hlast, hqstate⟩
  · intro reason hexit hreason
    have hfinal : c.exitCode.finalFault = some reason := hexit ▸ ExitCode.finalFault_eq_some hreason
    have hlastmem : last ∈ c.replayed s.rows := by
      rw [replayed, hfinal, Option.isSome_some, if_pos rfl]
      exact List.mem_of_getLast? hlast
    exact (hproven.fault_follows last hlast).follow_eq hexit hreason hfree
      (hsteps.wellFormedFor hm) hqstate (hpaths last hlastmem)
      fun x hx => hhashed _ (.inr (.inr ⟨outcomes, q, hsteps, Nat.le_of_eq hcount, hx⟩))
  · rw [hqstate]
    exact hproven.end_eq last hlast
  · rw [← hproven.output_eq last hlast, ← hqstate]
    rfl

/-- A proven claim is true of every machine in the claimed start state, whose run also ends in the
state of the last row. -/
theorem SegmentClaim.ProvenBy.trueOf {c : SegmentClaim} {s : SegmentSeal} (hproven : c.ProvenBy s)
    {hashed : Bytes → Prop} (hfree : CollisionFree hashed) {p : Playback}
    (hhashed : ∀ x, c.Hashed s p x → hashed x) (hm : p.memory.WellFormedFor s.params)
    (hstart : p.state.commitment = c.startCommitment) {rest : List HostReply}
    (hreplies : p.replies = s.replies ++ rest) :
    ∃ outcomes q, c.TrueOf s.params p outcomes q ∧ q.replies = rest ∧
      ∃ row ∈ s.rows, q.state = row.state := by
  obtain ⟨outcomes, q, -, h⟩ := hproven.exists_along hfree hhashed hm hstart hreplies
  exact ⟨outcomes, q, h⟩

/-- The claim of an accepted receipt is true of every machine in the claimed start state whose host
gives the answers of the rows, unless byte strings that are hashed for the start state, by the
verifier or in the trees along the run collide. -/
theorem SegmentReceipt.trueOf_of_verify {r : SegmentReceipt} {s : SegmentSeal}
    (hverify : r.verify = .ok ()) (hseal : r.decodeSeal = .ok s) {p : Playback}
    (hm : p.memory.WellFormedFor s.params)
    (hstart : p.state.commitment = r.claim.startCommitment) {rest : List HostReply}
    (hreplies : p.replies = s.replies ++ rest) (hfree : CollisionFree (r.claim.Hashed s p)) :
    ∃ outcomes q, r.claim.TrueOf s.params p outcomes q ∧ q.replies = rest := by
  obtain ⟨s', hs', hproven⟩ := verify_eq_ok_iff.mp hverify
  obtain rfl : s = s' := Except.ok.inj (hseal.symm.trans hs')
  obtain ⟨outcomes, q, htrue, hq, -⟩ := hproven.trueOf hfree (fun x hx => hx) hm hstart hreplies
  exact ⟨outcomes, q, htrue, hq⟩

open HaltingGuest in
/-- The receipt of the last instruction of the guest is accepted, and the instruction halts. -/
theorem SegmentReceipt.trueOf_of_verify_halted :
    (receipt 1 loaded halted (.halted 7)).verify = .ok () ∧
    ∃ outcomes q, (receipt 1 loaded halted (.halted 7)).claim.TrueOf params ⟨loaded, memory, []⟩
      outcomes q ∧ q.replies = [] := by
  have hverify : (receipt 1 loaded halted (.halted 7)).verify = .ok () := verify_receipt .halt
  have hreplies : (Playback.mk loaded memory []).replies =
      (sealOf loaded halted).replies ++ [] := rfl
  refine ⟨hverify, trueOf_of_verify hverify (decodeSeal_receipt _ _ _ _) wellFormedFor_memory
    (startCommitment_receipt _ _ _ _ []).symm hreplies
    (collisionFree_messages.mono fun x hx => ?_)⟩
  rcases hx with rfl | hx | hx
  · exact mem_messages_of_state (by simp)
  · exact mem_messages_of_hashedInSeal .halt hx
  · exact mem_messages_of_hashedAlong (by simp) hx

end ReplayVM
