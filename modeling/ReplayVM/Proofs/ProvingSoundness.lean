import ReplayVM.Proofs.RecordedRows
import ReplayVM.Proofs.SegmentSoundness

/-!
# Receipts of proven segments

A segment is proven by executing it again on its snapshot, and its receipt is checked against its
parameters alone. The two agree on everything but one thing: proving takes the snapshot with the
address space that it has, and verification asks for paths as long as the parameters say. So the
receipt of a segment that is proven is accepted exactly when the address space of the snapshot is
that of the parameters, or when no word is ever fetched.

## Main definitions

* `Segment.Witnessed`: a segment that executes as it states.
* `Segment.Fetches`: a segment whose rows hold an instruction word.

## Main results

* `Segment.prove_eq_ok_iff`: the segments that are proven, with their receipts.
* `Segment.verify_of_prove_iff`: when the receipt of a proven segment is accepted.
-/

namespace ReplayVM

/-! ### Segments -/

namespace Segment

variable {s : Segment} {budget : Nat} {cancelled : Checkpoint → Bool} {r : SegmentReceipt}
  {front rows : List Row} {last : Row} {p : Playback}

/-- A segment that executes as it states, with the rows of its instructions, the row of its end
state, and the machine at its end. -/
structure Witnessed (s : Segment) (front : List Row) (last : Row) (p : Playback) : Prop where
  count_ne_zero : s.exitCode.needsInstruction = true → s.instructionCount ≠ 0
  rows_eq : s.playback.rows s.params s.exitCode s.instructionCount.toNat 0 = .ok (front, p)
  replies_eq : p.replies = []
  finalRow_eq : p.finalRow s.params s.exitCode = .ok last
  end_eq : last.state.commitment = s.endCommitment
  output_eq : last.state.outputDigest = s.outputDigest

theorem witness_eq_ok_iff :
    s.witness = .ok rows ↔ ∃ front last p, s.Witnessed front last p ∧ rows = front ++ [last] := by
  constructor
  · intro h
    simp only [witness, bind, Except.bind, throw, throwThe, MonadExceptOf.throw, pure,
      Except.pure] at h
    split_ifs at h with hneeds
    cases hrows : s.playback.rows s.params s.exitCode s.instructionCount.toNat 0 with
    | error cause => simp [hrows] at h
    | ok found =>
      obtain ⟨front, p⟩ := found
      simp only [hrows] at h
      split_ifs at h with hreplies
      cases hlast : p.finalRow s.params s.exitCode with
      | error cause => simp [hlast] at h
      | ok last =>
        simp only [hlast] at h
        split_ifs at h with hend houtput
        refine ⟨front, last, p, ⟨fun h hzero => hneeds ⟨hzero, h⟩, hrows, ?_, hlast,
          not_not.mp hend, not_not.mp houtput⟩, (Except.ok.inj h).symm⟩
        simpa using hreplies
  · rintro ⟨front, last, p, h, rfl⟩
    exact witness_eq h.count_ne_zero h.rows_eq h.replies_eq h.finalRow_eq h.end_eq h.output_eq

theorem checkStatement_eq_ok_iff : s.checkStatement = .ok () ↔
    s.params.configDigest = s.configDigest ∧
      s.instructionCount.toNat ≤ s.params.maxSegmentCycles ∧
      s.trace.startState.commitment = s.startCommitment := by
  unfold checkStatement
  constructor
  · intro h
    split_ifs at h with hconfig hcount hstart
    exact ⟨not_not.mp hconfig, Nat.le_of_not_lt hcount, not_not.mp hstart⟩
  · rintro ⟨hconfig, hcount, hstart⟩
    rw [if_neg (not_not.mpr hconfig), if_neg (Nat.not_lt_of_le hcount), if_neg (not_not.mpr hstart)]

/-- A segment is proven if nobody cancels it, it is admitted and it has a witness. -/
theorem prove_eq_ok_iff : s.prove budget cancelled = .ok r ↔
    (∀ c, cancelled c = false) ∧ s.checkAdmission budget = .ok () ∧
      ∃ rows, s.witness = .ok rows ∧ r = s.receiptOf rows := by
  have hpass (c : Checkpoint) : c.pass cancelled = .ok () ↔ cancelled c = false := by
    unfold Checkpoint.pass
    cases cancelled c <;> simp
  simp only [prove, bind_eq_ok_iff, mapError_eq_ok_iff, hpass]
  constructor
  · rintro ⟨⟨⟩, hstart, ⟨⟩, hadmitted, rows, hrows, ⟨⟩, hafter, ⟨⟩, hroot, hr⟩
    refine ⟨fun c => ?_, hadmitted, rows, hrows, (Except.ok.inj hr).symm⟩
    cases c with
    | start => exact hstart
    | rows => exact hafter
    | root => exact hroot
  · rintro ⟨hcancelled, hadmitted, rows, hrows, rfl⟩
    exact ⟨(), hcancelled _, (), hadmitted, rows, hrows, (), hcancelled _, (), hcancelled _, rfl⟩

namespace Witnessed

/-- The paths of all rows are as long as the tree of the snapshot is deep. -/
theorem hasDepth (h : s.Witnessed front last p) :
    front.length = s.instructionCount.toNat ∧
      ∀ row ∈ front ++ [last], row.HasDepth s.trace.startMemory.tree.depth := by
  obtain ⟨hlen, hmemory, hfront, -⟩ := Playback.hasDepth_rows rfl h.rows_eq
  obtain ⟨-, hlast, -⟩ := Playback.hasDepth_finalRow hmemory h.finalRow_eq
  refine ⟨hlen, fun row hrow => ?_⟩
  rcases List.mem_append.mp hrow with hrow | hrow
  · exact hfront row hrow
  · exact List.mem_singleton.mp hrow ▸ hlast

theorem state_last (h : s.Witnessed front last p) : last.state = p.state :=
  (Playback.hasDepth_finalRow rfl h.finalRow_eq).1

theorem decodeSeal_eq (h : s.Witnessed front last p) (hm : s.trace.startMemory.WellFormed) :
    (s.receiptOf (front ++ [last])).decodeSeal = .ok (s.sealOf (front ++ [last])) := by
  obtain ⟨hlen, hdepth⟩ := h.hasDepth
  have hcount : s.instructionCount.toNat < 4294967296 := s.instructionCount.toNat_lt
  have hle := hm.memoryBits_le
  refine (SegmentSeal.readsBack ?_ fun row hrow => ?_).decode_encode
  · change (front ++ [last]).length < 18446744073709551616
    rw [List.length_append, hlen, List.length_singleton]
    omega
  · refine (hdepth row hrow).hasShortPaths ?_
    rw [hm.depth_eq, hm.treeDepth_eq]
    change _ < 18446744073709551616
    omega

/-- The rows of an admitted segment prove its claim if they follow each other and the last one shows
the fault of the exit. -/
theorem provenBy (h : s.Witnessed front last p) (hadmitted : s.checkAdmission budget = .ok ())
    (hrows : s.claim.RowsFollow s.params 0 (front ++ [last]))
    (hfault : s.claim.FaultFollows s.params last) :
    s.claim.ProvenBy (s.sealOf (front ++ [last])) := by
  obtain ⟨hvalid, hstatement, -⟩ := checkAdmission_eq_ok_iff.mp hadmitted
  obtain ⟨hconfig, hcount, hstart⟩ := checkStatement_eq_ok_iff.mp hstatement
  have hlast {row : Row} (hrow : (front ++ [last]).getLast? = some row) : row = last :=
    (Option.some.inj (List.getLast?_concat.symm.trans hrow)).symm
  refine ⟨hvalid, hconfig, hcount, ?_, h.count_ne_zero, rfl, fun first hfirst => ?_,
    fun row hrow => ?_, fun row hrow => ?_, hrows, fun row hrow => ?_⟩
  · change (front ++ [last]).length = _
    rw [List.length_append, h.hasDepth.1]
    rfl
  · rw [Playback.state_eq_of_head? h.rows_eq h.state_last first hfirst]
    exact hstart
  · rw [hlast hrow]
    exact h.end_eq
  · rw [hlast hrow]
    exact h.output_eq
  · rw [hlast hrow]
    exact hfault

end Witnessed

/-! ### Accepted receipts -/

/-- A segment whose rows hold an instruction word: it has an instruction, or it ends in the fault of
an instruction that can be fetched. -/
def Fetches (s : Segment) : Prop :=
  s.instructionCount ≠ 0 ∨
    s.exitCode.finalFault.isSome = true ∧ Machine.canFetch s.params s.trace.startCpu.pc = true

/-- The rows of a segment over the address space of its parameters prove its claim. -/
theorem Witnessed.provenBy_of_over (h : s.Witnessed front last p)
    (hadmitted : s.checkAdmission budget = .ok ())
    (hm : s.trace.startMemory.WellFormedOver s.params) :
    s.claim.ProvenBy (s.sealOf (front ++ [last])) := by
  obtain ⟨hp, hrows⟩ := Playback.rowsFollow_of_rows (c := s.claim) hm rfl
    (Nat.zero_add _).symm h.rows_eq
  exact h.provenBy hadmitted (hrows last h.state_last)
    (Playback.faultFollows_finalRow (fun _ => hp) h.finalRow_eq)

/-- The rows of a segment that fetches nothing prove its claim, whatever its snapshot. -/
theorem Witnessed.provenBy_of_not_fetches (h : s.Witnessed front last p)
    (hadmitted : s.checkAdmission budget = .ok ()) (hfetches : ¬s.Fetches) :
    s.claim.ProvenBy (s.sealOf (front ++ [last])) := by
  obtain ⟨hcount, hfault⟩ := not_or.mp hfetches
  have hzero : s.instructionCount.toNat = 0 := congrArg UInt32.toNat (not_not.mp hcount)
  have hrows := h.rows_eq
  rw [hzero] at hrows
  obtain ⟨rfl, rfl⟩ := Prod.mk.inj (Except.ok.inj hrows)
  refine h.provenBy hadmitted trivial fun reason hreason => ?_
  have hno : ¬Machine.canFetch s.params s.trace.startCpu.pc = true := fun hf =>
    hfault ⟨Option.isSome_iff_exists.mpr ⟨reason, hreason⟩, hf⟩
  exact Playback.faultFollows_finalRow (c := s.claim) (fun hf => absurd hf hno) h.finalRow_eq
    reason hreason

/-- Rows with an instruction word prove a claim only if the snapshot has the address space of the
parameters. -/
theorem Witnessed.depth_eq (h : s.Witnessed front last p) (hfetches : s.Fetches)
    (hproven : s.claim.ProvenBy (s.sealOf (front ++ [last]))) :
    s.trace.startMemory.tree.depth = s.params.merkleDepth := by
  obtain ⟨hlen, hmemory, -, hfirst⟩ := Playback.hasDepth_rows rfl h.rows_eq
  obtain ⟨-, hdepth⟩ := h.hasDepth
  by_cases hcount : s.instructionCount = 0
  · obtain ⟨hfault, hf⟩ := hfetches.resolve_left (not_not.mpr hcount)
    have hrows := h.rows_eq
    rw [hcount] at hrows
    obtain ⟨rfl, rfl⟩ := Prod.mk.inj (Except.ok.inj hrows)
    obtain ⟨-, -, hfetch⟩ := Playback.hasDepth_finalRow rfl h.finalRow_eq
    obtain ⟨reason, hreason⟩ := Option.isSome_iff_exists.mp hfault
    obtain ⟨state, hreplay⟩ := hproven.fault_follows last List.getLast?_concat reason hreason
    exact (hdepth last (by simp)).eq_of_replay ((hfetch hfault).trans hf) hreplay
  · obtain ⟨first, tail, rfl⟩ : ∃ first tail, front = first :: tail := by
      refine List.exists_cons_of_ne_nil fun hnil => hcount (UInt32.toNat_inj.mp ?_)
      rw [← hlen, hnil]
      rfl
    have hrows : s.claim.RowsFollow s.params 0 (first :: (tail ++ [last])) := hproven.rows_follow
    obtain ⟨next, rest, hrest⟩ := List.exists_cons_of_ne_nil
      (List.append_ne_nil_of_right_ne_nil tail (List.cons_ne_nil last []))
    rw [hrest] at hrows
    obtain ⟨⟨outcome, state, hreplay, -, -⟩, -⟩ := hrows
    exact (hdepth first (by simp)).eq_of_replay (hfirst first rfl) hreplay

theorem Witnessed.verify_eq_ok_iff (h : s.Witnessed front last p)
    (hm : s.trace.startMemory.WellFormed) : (s.receiptOf (front ++ [last])).verify = .ok () ↔
      s.claim.ProvenBy (s.sealOf (front ++ [last])) := by
  rw [SegmentReceipt.verify_eq_ok_iff]
  constructor
  · rintro ⟨content, hcontent, hproven⟩
    obtain rfl := Except.ok.inj ((h.decodeSeal_eq hm).symm.trans hcontent)
    exact hproven
  · intro hproven
    exact ⟨_, h.decodeSeal_eq hm, hproven⟩

/-- The receipt of a segment that is proven is accepted exactly when the address space of the
snapshot is that of the parameters, or when the segment fetches nothing. -/
theorem verify_of_prove_iff (hm : s.trace.startMemory.WellFormed)
    (h : s.prove budget cancelled = .ok r) : r.verify = .ok () ↔
      (s.Fetches → s.trace.startMemory.memoryBits = s.params.memoryBits) := by
  obtain ⟨-, hadmitted, rows, hwitness, rfl⟩ := prove_eq_ok_iff.mp h
  obtain ⟨front, last, p, hrecorded, rfl⟩ := witness_eq_ok_iff.mp hwitness
  obtain ⟨hvalid, -, -⟩ := checkAdmission_eq_ok_iff.mp hadmitted
  rw [hrecorded.verify_eq_ok_iff hm]
  constructor
  · intro hproven hfetches
    have hdepth := hrecorded.depth_eq hfetches hproven
    exact ((Memory.wellFormedOver_iff hm hvalid).mpr hdepth).memoryBits_eq
  · intro hbits
    by_cases hfetches : s.Fetches
    · exact hrecorded.provenBy_of_over hadmitted ⟨hm, hbits hfetches⟩
    · exact hrecorded.provenBy_of_not_fetches hadmitted hfetches

end Segment

/-! ### The guest that halts under other parameters -/

namespace HaltingGuest

/-- The segment of the instruction that halts, on the memory of the guest but under any
parameters. -/
def segmentUnder (p : Params) : Segment where
  index := 0
  startCommitment := (SystemState.of loaded memory.root).commitment
  endCommitment := (SystemState.of halted memory.root).commitment
  instructionCount := 1
  exitCode := .halted 7
  outputDigest := halted.output.digest
  params := p
  configDigest := p.configDigest
  trace := ⟨loaded.cpu, memory, loaded.output, []⟩

variable {p : Params}

theorem wellFormed_segmentUnder : (segmentUnder p).trace.startMemory.WellFormed :=
  id wellFormedFor_memory.toWellFormed

theorem witnessed_segmentUnder (hf : Machine.canFetch p loaded.cpu.pc = true) :
    (segmentUnder p).Witnessed [row loaded] { state := .of halted memory.root }
      ⟨halted, memory, []⟩ where
  count_ne_zero _ := by
    change (1 : UInt32) ≠ 0
    decide
  rows_eq := by
    have hplan : loaded.plan p (memory.loadWord loaded.cpu.pc) =
        .ok (.finish (.halted 7) halted) := by
      rw [loadWord_memory rfl (by decide)]
      rfl
    have hstep : Playback.step p ⟨loaded, memory, []⟩ =
        ⟨.ok (.halted 7), halted, Playback.fetched ⟨loaded, memory, []⟩⟩ :=
      Playback.step_of_plan_ok (p := ⟨loaded, memory, []⟩) hf hplan
    have hadvance : Playback.advance p 0 ⟨loaded, memory, []⟩ =
        .ok (.halted 7, row loaded, ⟨halted, memory, []⟩) := by
      rw [Playback.advance_eq_ok_iff, hstep]
      exact ⟨rfl, rfl, rfl, rfl⟩
    exact Playback.rows_succ_eq_ok_iff.mpr ⟨_, _, _, [], hadvance, rfl, rfl, rfl⟩
  replies_eq := rfl
  finalRow_eq := rfl
  end_eq := rfl
  output_eq := rfl

theorem checkAdmission_segmentUnder (hvalid : p.validate = .ok ()) :
    (segmentUnder p).checkAdmission (UInt64.size - 1) = .ok () := by
  refine Segment.checkAdmission_eq_ok_iff.mpr ⟨hvalid,
    Segment.checkStatement_eq_ok_iff.mpr ⟨rfl, ?_, rfl⟩, .of_exists ?_⟩
  · change 1 ≤ 1 <<< p.maxSegmentPo2.toNat
    rw [Nat.one_shiftLeft]
    exact Nat.one_le_two_pow
  · exact Segment.exists_witnessEstimate wellFormed_segmentUnder hvalid
      (show 0 < 1 <<< 60 by decide)

/-- The segment is proven under all parameters in range that have its program counter. -/
theorem proveFully_segmentUnder (hvalid : p.validate = .ok ())
    (hf : Machine.canFetch p loaded.cpu.pc = true) : (segmentUnder p).proveFully =
      .ok ((segmentUnder p).receiptOf ([row loaded] ++ [{ state := .of halted memory.root }])) :=
  Segment.prove_eq_ok_iff.mpr ⟨fun _ => rfl, checkAdmission_segmentUnder hvalid, _,
    Segment.witness_eq_ok_iff.mpr ⟨_, _, _, witnessed_segmentUnder hf, rfl⟩, rfl⟩

end HaltingGuest

open HaltingGuest in
/-- Under its own parameters the segment that halts is proven, and its receipt is accepted. -/
theorem Segment.verify_of_prove_halting :
    ∃ r, (segmentUnder HaltingGuest.params).proveFully = .ok r ∧
      (r.verify = .ok () ↔ ((segmentUnder HaltingGuest.params).Fetches →
        memory.memoryBits = HaltingGuest.params.memoryBits)) := by
  have hproven := proveFully_segmentUnder validate_params rfl
  exact ⟨_, hproven, verify_of_prove_iff wellFormed_segmentUnder hproven⟩

open HaltingGuest in
/-- With twice the address space in its parameters the segment that halts is proven, and its receipt
is not accepted. -/
theorem Segment.prove_unverifiable : ∃ (s : Segment) (r : SegmentReceipt),
    s.trace.startMemory.WellFormed ∧ s.proveFully = .ok r ∧ r.verify ≠ .ok () := by
  have hvalid : ({ memoryBits := 15 } : Params).validate = .ok () :=
    Params.validate_eq_ok_iff.mpr (by decide)
  have hf : Machine.canFetch { memoryBits := 15 } loaded.cpu.pc = true := rfl
  have hrecorded := witnessed_segmentUnder hf
  refine ⟨_, _, wellFormed_segmentUnder, proveFully_segmentUnder hvalid hf, fun h => ?_⟩
  have hproven := (hrecorded.verify_eq_ok_iff wellFormed_segmentUnder).mp h
  have hdepth := hrecorded.depth_eq (.inl (show (1 : UInt32) ≠ 0 by decide)) hproven
  rw [wellFormed_segmentUnder.depth_eq] at hdepth
  exact absurd hdepth
    (show ¬Memory.treeDepth 14 = Params.merkleDepth { memoryBits := 15 } by decide)

end ReplayVM
