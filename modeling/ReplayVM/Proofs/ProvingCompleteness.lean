import ReplayVM.Proofs.FormatLaws
import ReplayVM.Proofs.MemoryConstruction
import ReplayVM.Proofs.Stretches
import ReplayVM.Proofs.WitnessSpace
import ReplayVM.Receipt.Prove

/-!
# Completeness of proving

Every segment of a run can be proven, and its receipt is accepted. The segment is a stretch of the
run, so its rows follow each other; the row of the end state gives the fault that the segment ends
in, if it ends in one; and the paths of replayed rows are as long as the tree is deep, so the seal
is read back from its encoding.

## Main definitions

* `Segment.ProvenWith`: a segment that is proven by some rows.

## Main results

* `Live.exists_provenWith`: every segment of a run is proven by its rows.
* `Segment.ProvenWith.verify`: the receipt of a segment that is proven is accepted.
-/

namespace ReplayVM

/-! ### Paths of rows -/

theorem Params.merkleDepth_lt (p : Params) : p.merkleDepth < UInt64.size :=
  Nat.lt_trans (UInt32.toNat_lt_size _) (by decide)

theorem MerklePath.length_of_authenticates {path : MerklePath} {root : Digest} {depth : Nat}
    {addr value : UInt32} (h : path.authenticates root depth addr value = true) :
    path.siblings.length = depth := by
  simp only [authenticates, verifyWord, Bool.and_eq_true, decide_eq_true_eq] at h
  exact h.2.1.1

/-- The paths of a row that is replayed are as long as the tree is deep. -/
theorem Row.hasShortPaths_of_replay {params : Params} {r : Row}
    {result : Except FaultReason StepOutcome × SystemState} (h : r.replay params = .ok result) :
    r.HasShortPaths := by
  obtain ⟨hfetch, hdata, -⟩ := replay_eq_ok_iff.mp h
  have hdepth := params.merkleDepth_lt
  refine ⟨fun f hf => ?_, fun d hd => ?_⟩
  · rw [fetchIsAuthentic, hf, Option.all_some] at hfetch
    rwa [MerklePath.length_of_authenticates hfetch]
  · rw [dataIsAuthentic, hd, Option.all_some] at hdata
    rwa [MerklePath.length_of_authenticates hdata]

/-! ### The row of the end state -/

/-- The row of an end state in which the next step gives the fault of the exit, if it has one. -/
theorem Live.exists_finalRow {s : Live} {exit : ExitCode}
    (hm : s.world.memory.WellFormedFor s.params)
    (hfault : ∀ reason, exit.finalFault = some reason → s.step = (.error reason, s)) :
    ∃ last, (s.playback []).finalRow s.params exit = .ok last ∧ last.state = s.state ∧
      last.HasShortPaths ∧ ∀ reason, exit.finalFault = some reason →
        ∃ state, last.replay s.params = .ok (.error reason, state) := by
  unfold Playback.finalRow
  cases hexit : exit.finalFault with
  | none =>
    refine ⟨⟨s.state, none, none, none⟩, rfl, rfl, ⟨?_, ?_⟩, by simp⟩
    · simp
    · simp
  | some reason =>
    obtain ⟨hresult, state, hreplay⟩ := replay_of_error hm (hfault reason hexit)
    simp only [hresult, if_true]
    refine ⟨_, rfl, rfl, Row.hasShortPaths_of_replay hreplay, fun reason' h => ?_⟩
    obtain rfl := Option.some.inj h
    exact ⟨state, hreplay⟩

/-! ### Segments -/

/-- A segment is admitted if its parameters are in range, it is what it states, and its witness fits
the space. -/
theorem Segment.checkAdmission_eq_ok_iff {s : Segment} {budget : Nat} :
    s.checkAdmission budget = .ok () ↔
      s.params.validate = .ok () ∧ s.checkStatement = .ok () ∧ s.WitnessWithin budget := by
  simp only [checkAdmission, bind_eq_ok_iff, mapError_eq_ok_iff, Stop.fit_eq_ok_iff]
  constructor
  · rintro ⟨⟨⟩, hvalid, ⟨⟩, hstatement, needed, hneeded, hspace⟩
    split_ifs at hspace with hlt
    exact ⟨hvalid, hstatement, needed, hneeded, Nat.le_of_not_lt hlt⟩
  · rintro ⟨hvalid, hstatement, needed, hneeded, hspace⟩
    exact ⟨(), hvalid, (), hstatement, needed, hneeded, if_neg (Nat.not_lt_of_le hspace)⟩

/-- The witness of a segment that executes as it states. -/
theorem Segment.witness_eq {s : Segment} {rows : List Row} {last : Row} {p : Playback}
    (hneeds : s.exitCode.needsInstruction = true → s.instructionCount ≠ 0)
    (hrows : s.playback.rows s.params s.exitCode s.instructionCount.toNat 0 = .ok (rows, p))
    (hreplies : p.replies = []) (hlast : p.finalRow s.params s.exitCode = .ok last)
    (hend : last.state.commitment = s.endCommitment)
    (houtput : last.state.outputDigest = s.outputDigest) : s.witness = .ok (rows ++ [last]) := by
  have hinstructions : ¬(s.instructionCount = 0 ∧ s.exitCode.needsInstruction = true) :=
    fun h => hneeds h.2 h.1
  simp [witness, hinstructions, hrows, hreplies, hlast, hend, houtput, bind, Except.bind, pure,
    Except.pure]

/-- A segment that is admitted with all the space there is, whose witness are some rows, and whose
claim these rows prove. -/
structure Segment.ProvenWith (s : Segment) (rows : List Row) : Prop where
  admitted : s.checkAdmission (UInt64.size - 1) = .ok ()
  witness_eq : s.witness = .ok rows
  proven : s.claim.ProvenBy (s.sealOf rows)
  short : ∀ row ∈ rows, row.HasShortPaths

namespace Live

variable {s : Live} {limits : RunLimits} {index : UInt32}

/-- The number of instructions of a segment is no larger than a claim can state. -/
theorem count_segmentEnd_le (hvalid : s.params.validate = .ok ())
    (hlimit : limits.segmentLimit ≤ s.params.maxSegmentCycles) :
    (s.segmentEnd limits).count ≤ s.params.maxSegmentCycles ∧
      (s.segmentEnd limits).count.toUInt32.toNat = (s.segmentEnd limits).count := by
  have hcount := Nat.le_trans (stretch_segmentEnd limits s).1 hlimit
  obtain ⟨-, -, -, hpo2⟩ := Params.validate_eq_ok_iff.mp hvalid
  have hmax : s.params.maxSegmentCycles ≤ 1 <<< 24 := by
    unfold Params.maxSegmentCycles
    rw [Nat.one_shiftLeft, Nat.one_shiftLeft]
    exact Nat.pow_le_pow_right (by omega) hpo2
  refine ⟨hcount, ?_⟩
  rw [UInt32.toNat_ofNat']
  omega

theorem checkStatement_segment (hvalid : s.params.validate = .ok ())
    (hlimit : limits.segmentLimit ≤ s.params.maxSegmentCycles) :
    (s.segment index (s.segmentEnd limits)).checkStatement = .ok () := by
  obtain ⟨hcount, hnat⟩ := count_segmentEnd_le hvalid hlimit
  have hlen : ¬s.params.maxSegmentCycles < (s.segmentEnd limits).count.toUInt32.toNat := by omega
  have hstart : (s.segment index (s.segmentEnd limits)).trace.startState = s.state := rfl
  unfold Segment.checkStatement
  rw [hstart]
  simp only [segment, ne_eq, not_true_eq_false, if_false, hlen]

/-- The space that the witness of a segment takes can be counted, since it takes no more answers of
the host than it has instructions. -/
theorem exists_witnessEstimate_segment (hvalid : s.params.validate = .ok ())
    (hm : s.world.memory.WellFormedFor s.params)
    (hlimit : limits.segmentLimit ≤ s.params.maxSegmentCycles) :
    ∃ estimate, (s.segment index (s.segmentEnd limits)).witnessEstimate = some estimate := by
  obtain ⟨hcount, hnat⟩ := count_segmentEnd_le hvalid hlimit
  obtain ⟨new, hnew, hreplies, -⟩ := (stretch_segmentEnd limits s).2.exists_recorded hm
  refine Segment.exists_witnessEstimate hm.toWellFormed hvalid ?_
  change (s.segmentEnd limits).live.world.replies.toList.length < 1152921504606846976
  have hcount : (s.segmentEnd limits).count.toUInt32.toNat < 4294967296 := UInt32.toNat_lt _
  have hlen : (s.segmentEnd limits).live.world.replies.toList.length ≤
      (s.segmentEnd limits).count := by
    rw [hreplies]
    simpa [fresh] using hnew
  omega

theorem checkAdmission_segment (hvalid : s.params.validate = .ok ())
    (hm : s.world.memory.WellFormedFor s.params)
    (hlimit : limits.segmentLimit ≤ s.params.maxSegmentCycles) :
    (s.segment index (s.segmentEnd limits)).checkAdmission (UInt64.size - 1) = .ok () :=
  Segment.checkAdmission_eq_ok_iff.mpr ⟨hvalid, checkStatement_segment hvalid hlimit,
    .of_exists (exists_witnessEstimate_segment hvalid hm hlimit)⟩

/-- The recorded rows of a segment, with a row of its end state behind them that gives its fault,
prove its claim. -/
theorem provenBy_of_recorded {e : SegmentEnd} {replies rest : List HostReply} {rows : List Row}
    {last : Row} (h : s.fresh.Recorded e.exit e.count e.live replies rest rows)
    (hvalid : s.params.validate = .ok ()) (hcount : e.count ≤ s.params.maxSegmentCycles)
    (hnat : e.count.toUInt32.toNat = e.count)
    (hpos : e.exit.needsInstruction = true → e.count.toUInt32 ≠ 0)
    (hstate : last.state = e.live.state)
    (hfault : ∀ reason, e.exit.finalFault = some reason →
      ∃ state, last.replay s.params = .ok (.error reason, state)) :
    (s.segment index e).claim.ProvenBy ((s.segment index e).sealOf (rows ++ [last])) := by
  have hlast {row : Row} (hrow : (rows ++ [last]).getLast? = some row) : row = last :=
    (Option.some.inj (List.getLast?_concat.symm.trans hrow)).symm
  refine ⟨hvalid, ?_, ?_, ?_, hpos, ?_, ?_, ?_, ?_, ?_, ?_⟩
  · exact Eq.refl s.params.configDigest
  · exact hnat.symm ▸ hcount
  · change (rows ++ [last]).length = e.count.toUInt32.toNat + 1
    rw [List.length_append, h.length_rows, hnat]
    rfl
  · exact Eq.refl (traceRoot ((rows ++ [last]).map Row.digest))
  · exact fun first hfirst => congrArg SystemState.commitment (h.first_eq last hstate first hfirst)
  · intro row hrow
    rw [hlast hrow]
    exact congrArg SystemState.commitment hstate
  · intro row hrow
    rw [hlast hrow]
    exact congrArg SystemState.outputDigest hstate
  · exact h.rows_follow last hstate _ 0 rfl (by rw [Nat.zero_add]; exact hnat)
  · intro row hrow
    rw [hlast hrow]
    exact hfault

/-- Every segment of a run is proven by its rows. -/
theorem exists_provenWith (hvalid : s.params.validate = .ok ())
    (hm : s.world.memory.WellFormedFor s.params)
    (hlimit : limits.segmentLimit ≤ s.params.maxSegmentCycles) :
    ∃ rows, (s.segment index (s.segmentEnd limits)).ProvenWith rows := by
  obtain ⟨hcount, hnat⟩ := count_segmentEnd_le hvalid hlimit
  obtain ⟨-, hstretch⟩ := stretch_segmentEnd limits s
  have hpos : (s.segmentEnd limits).exit.needsInstruction = true →
      0 < (s.segmentEnd limits).count := count_segmentEnd_pos
  have hadmitted : (s.segment index (s.segmentEnd limits)).checkAdmission (UInt64.size - 1) =
      .ok () := checkAdmission_segment hvalid hm hlimit
  generalize s.segmentEnd limits = e at *
  obtain ⟨new, -, hreplies, hrows⟩ := hstretch.exists_recorded hm
  obtain ⟨rows, hrecorded⟩ := hrows []
  obtain ⟨last, hfinal, hstate, hshort, hfault⟩ :=
    exists_finalRow (hstretch.wellFormedFor hm) fun _ => hstretch.step_of_finalFault
  rw [show e.live.params = s.params from hstretch.params_eq] at hfinal hfault
  have hneeds : e.exit.needsInstruction = true → e.count.toUInt32 ≠ 0 := by
    intro h hzero
    have := hpos h
    rw [← hnat, hzero] at this
    exact Nat.lt_irrefl 0 this
  refine ⟨rows ++ [last], hadmitted, ?_,
    provenBy_of_recorded hrecorded hvalid hcount hnat hneeds hstate hfault, ?_⟩
  · have hplayback : (s.segment index e).playback = s.fresh.playback (new ++ []) := by
      simp [Segment.playback, segment, playback, fresh, hreplies, Trace.startMachine]
    have hplay := hrecorded.rows_eq 0
    rw [← hplayback, ← hnat] at hplay
    exact Segment.witness_eq hneeds hplay rfl hfinal (congrArg SystemState.commitment hstate)
      (congrArg SystemState.outputDigest hstate)
  · intro row h
    rcases List.mem_append.mp h with h | h
    · obtain ⟨result, hresult⟩ := hrecorded.replayed row h
      exact Row.hasShortPaths_of_replay hresult
    · obtain rfl := List.mem_singleton.mp h
      exact hshort

end Live

/-! ### Receipts -/

namespace Segment

variable {s : Segment} {rows : List Row}

/-- The receipt of a segment with some rows. -/
def receiptOf (s : Segment) (rows : List Row) : SegmentReceipt :=
  { claim := s.claim, sealBytes := SegmentSeal.format.encode (s.sealOf rows) }

namespace ProvenWith

theorem proveFully_eq (h : s.ProvenWith rows) : s.proveFully = .ok (s.receiptOf rows) := by
  simp only [proveFully, prove, h.admitted, h.witness_eq, Checkpoint.pass, Except.mapError, bind,
    Except.bind, pure, Except.pure]
  rfl

theorem decodeSeal_eq (h : s.ProvenWith rows) :
    (s.receiptOf rows).decodeSeal = .ok (s.sealOf rows) := by
  refine (SegmentSeal.readsBack ?_ h.short).decode_encode
  have hlen : rows.length = s.claim.instructionCount.toNat + 1 := h.proven.length_rows
  have hlt : s.claim.instructionCount.toNat < 4294967296 := s.claim.instructionCount.toNat_lt
  change rows.length < 18446744073709551616
  omega

/-- The receipt of a segment that is proven is accepted. -/
theorem verify (h : s.ProvenWith rows) : (s.receiptOf rows).verify = .ok () :=
  SegmentReceipt.verify_eq_ok_iff.mpr ⟨_, h.decodeSeal_eq, h.proven⟩

end ProvenWith

end Segment

end ReplayVM
