import ReplayVM.Proofs.SegmentSoundness

/-!
# What a seal binds

A seal proves a claim about the very states, the very number of instructions and the very journal
that its rows have: another claim in any of these is not accepted with the same seal, and no
assumption on hashes is needed for this, because the commitments themselves are compared. The exit
is bound as far as the rows can tell exits apart. Halts and pauses are outcomes of an instruction
and are told apart from everything else, and so are the faults of instructions among each other; but
rows behind which execution could go on also justify a split, and the end of the session's cycles.
The index of a segment stands in the claim alone, so nothing binds it.

## Main definitions

* `SegmentSeal.Justifies`: the exits that rows justify.
* `ExitCode.SharesRows`: different exits that the same rows can justify.

## Main results

* `SegmentClaim.ProvenBy.iff_of_proven`: the claims that a seal proves beside a given one.
* `SegmentReceipt.verify_withClaim_iff`: the claims that are accepted with the same seal.
-/

namespace ReplayVM

/-! ### Exits of rows -/

/-- The exits that the rows of a seal justify: the last instruction, if there is one, has an outcome
that the exit allows, and a fault of an instruction is what the row of the end state gives. -/
structure SegmentSeal.Justifies (s : SegmentSeal) (exit : ExitCode) : Prop where
  needs : exit.needsInstruction = true → s.rows.dropLast ≠ []
  allows : ∀ row ∈ s.rows.dropLast.getLast?, ∃ outcome next,
    row.replay s.params = .ok (.ok outcome, next) ∧ exit.allowsLast outcome = true
  faults : ∀ reason, exit.finalFault = some reason → ∀ last ∈ s.rows.getLast?, ∃ next,
    last.replay s.params = .ok (.error reason, next)

/-- Different exits that the same rows can justify: a split, the end of the session's cycles, and
the fault of the instruction behind the rows. -/
def ExitCode.SharesRows (e e' : ExitCode) : Prop :=
  e.allowsLast .next = true ∧ e'.allowsLast .next = true ∧
    (e.finalFault = none ∨ e'.finalFault = none)

namespace SegmentClaim

variable {c c' : SegmentClaim} {params : Params} {index : Nat} {rows : List Row}

/-- The last instruction of rows that follow each other has an outcome that the exit allows. -/
theorem RowsFollow.allowsLast (h : c.RowsFollow params index rows)
    (hlen : index + rows.length = c.instructionCount.toNat + 1) :
    ∀ row ∈ rows.dropLast.getLast?, ∃ outcome next,
      row.replay params = .ok (.ok outcome, next) ∧ c.exitCode.allowsLast outcome = true := by
  induction rows generalizing index with
  | nil => simp
  | cons first rows ih =>
    cases rows with
    | nil => simp
    | cons second rows =>
      obtain ⟨⟨outcome, next, hreplay, hallows, -⟩, hrest⟩ := h
      simp only [List.length_cons] at hlen ih
      cases rows with
      | nil =>
        intro row hrow
        obtain rfl := Option.some.inj hrow
        rw [allows, if_pos (by simp at hlen; omega)] at hallows
        exact ⟨outcome, next, hreplay, hallows⟩
      | cons third rows => exact ih hrest (by omega)

/-- Rows that follow each other do so under any exit that allows the last outcome. -/
theorem RowsFollow.with_exit (h : c.RowsFollow params index rows)
    (hcount : c'.instructionCount = c.instructionCount)
    (hlen : index + rows.length = c.instructionCount.toNat + 1)
    (hlast : ∀ row ∈ rows.dropLast.getLast?, ∃ outcome next,
      row.replay params = .ok (.ok outcome, next) ∧ c'.exitCode.allowsLast outcome = true) :
    c'.RowsFollow params index rows := by
  induction rows generalizing index with
  | nil => trivial
  | cons first rows ih =>
    cases rows with
    | nil => trivial
    | cons second rows =>
      obtain ⟨⟨outcome, next, hreplay, hallows, hnext⟩, hrest⟩ := h
      simp only [List.length_cons] at hlen ih
      refine ⟨⟨outcome, next, hreplay, ?_, hnext⟩, ?_⟩
      · cases rows with
        | nil =>
          obtain ⟨outcome', next', hreplay', hallows'⟩ := hlast first rfl
          obtain ⟨h, -⟩ := Prod.mk.inj (Except.ok.inj (hreplay.symm.trans hreplay'))
          rwa [allows, hcount, if_pos (by simp at hlen; omega), Except.ok.inj h]
        | cons third rows =>
          simp only [List.length_cons] at hlen
          rw [allows, if_neg (by omega)] at hallows
          rwa [allows, hcount, if_neg (by omega)]
      · cases rows with
        | nil => trivial
        | cons third rows => exact ih hrest (by omega) hlast

/-- A claim about the same stretch of a run: with the same parameters, states, length and journal,
whatever its index and its exit. -/
structure SameStretch (c c' : SegmentClaim) : Prop where
  configDigest_eq : c.configDigest = c'.configDigest
  startCommitment_eq : c.startCommitment = c'.startCommitment
  endCommitment_eq : c.endCommitment = c'.endCommitment
  instructionCount_eq : c.instructionCount = c'.instructionCount
  outputDigest_eq : c.outputDigest = c'.outputDigest

namespace ProvenBy

variable {s : SegmentSeal}

theorem dropLast_eq_nil_iff (h : c.ProvenBy s) :
    s.rows.dropLast = [] ↔ c.instructionCount = 0 := by
  rw [← List.length_eq_zero_iff, List.length_dropLast, h.length_rows, Nat.add_sub_cancel]
  exact UInt32.toNat_inj (b := 0)

/-- A seal that proves a claim justifies its exit. -/
theorem justifies (h : c.ProvenBy s) : s.Justifies c.exitCode where
  needs hneeds hnil := h.count_ne_zero hneeds (h.dropLast_eq_nil_iff.mp hnil)
  allows := h.rows_follow.allowsLast (by rw [h.length_rows, Nat.zero_add])
  faults reason hreason last hlast := h.fault_follows last hlast reason hreason

/-- The claims that a seal proves beside a given one are those about the same stretch with an exit
that the rows justify. -/
theorem iff_of_proven (h : c.ProvenBy s) :
    c'.ProvenBy s ↔ c'.SameStretch c ∧ s.Justifies c'.exitCode := by
  have hnil := List.ne_nil_of_length_eq_add_one h.length_rows
  have hfirst := List.head?_eq_some_head hnil
  have hlast := List.getLast?_eq_some_getLast hnil
  constructor
  · intro h'
    have hcount : c'.instructionCount.toNat = c.instructionCount.toNat :=
      Nat.add_right_cancel (h'.length_rows.symm.trans h.length_rows)
    refine ⟨⟨?_, ?_, ?_, UInt32.toNat_inj.mp hcount, ?_⟩, h'.justifies⟩
    · rw [← h'.configDigest_eq, h.configDigest_eq]
    · rw [← h'.start_eq _ hfirst, h.start_eq _ hfirst]
    · rw [← h'.end_eq _ hlast, h.end_eq _ hlast]
    · rw [← h'.output_eq _ hlast, h.output_eq _ hlast]
  · rintro ⟨hsame, hjustifies⟩
    have hlen : 0 + s.rows.length = c.instructionCount.toNat + 1 := by
      rw [h.length_rows, Nat.zero_add]
    refine ⟨h.params_valid, ?_, ?_, ?_, fun hneeds hzero => ?_, h.traceRoot_eq, ?_, ?_, ?_,
      h.rows_follow.with_exit hsame.instructionCount_eq hlen hjustifies.allows, ?_⟩
    · rw [hsame.configDigest_eq, h.configDigest_eq]
    · rw [hsame.instructionCount_eq]
      exact h.count_le
    · rw [hsame.instructionCount_eq, h.length_rows]
    · rw [hsame.instructionCount_eq] at hzero
      exact hjustifies.needs hneeds (h.dropLast_eq_nil_iff.mpr hzero)
    · rw [hsame.startCommitment_eq]
      exact h.start_eq
    · rw [hsame.endCommitment_eq]
      exact h.end_eq
    · rw [hsame.outputDigest_eq]
      exact h.output_eq
    · exact fun last hlast reason hreason => hjustifies.faults reason hreason last hlast

end ProvenBy

end SegmentClaim

/-! ### Exits that share rows -/

namespace ExitCode

variable {e e' : ExitCode} {outcome : StepOutcome}

/-- Exits that allow the same last outcome are equal, unless they let execution go on. -/
theorem eq_or_allowsLast_next (h : e.allowsLast outcome = true)
    (h' : e'.allowsLast outcome = true) :
    e = e' ∨ e.allowsLast .next = true ∧ e'.allowsLast .next = true := by
  cases e <;> cases e' <;> simp_all [allowsLast]

/-- Exits that need no instruction are faults, which let execution go on before. -/
theorem allowsLast_next_of_not_needs (h : ¬e.needsInstruction = true) :
    e.allowsLast .next = true := by
  cases e <;> simp_all [needsInstruction, allowsLast]

/-- Exits that end in the same fault of an instruction are equal. -/
theorem eq_of_finalFault {reason : FaultReason} (h : e.finalFault = some reason)
    (h' : e'.finalFault = some reason) : e = e' := by
  have heq {e : ExitCode} (h : e.finalFault = some reason) : e = .fault reason := by
    cases e with
    | fault found => cases found <;> simp_all [finalFault]
    | _ => simp [finalFault] at h
  rw [heq h, heq h']

end ExitCode

/-- Rows justify one exit only, but for those that let execution go on. -/
theorem SegmentSeal.Justifies.eq_or_sharesRows {s : SegmentSeal} {e e' : ExitCode}
    (hrows : s.rows ≠ []) (h : s.Justifies e) (h' : s.Justifies e') :
    e = e' ∨ e.SharesRows e' := by
  have hnext : e = e' ∨ e.allowsLast .next = true ∧ e'.allowsLast .next = true := by
    cases hlast : s.rows.dropLast.getLast? with
    | none =>
      rw [List.getLast?_eq_none_iff] at hlast
      exact .inr ⟨ExitCode.allowsLast_next_of_not_needs fun hneeds => h.needs hneeds hlast,
        ExitCode.allowsLast_next_of_not_needs fun hneeds => h'.needs hneeds hlast⟩
    | some row =>
      obtain ⟨outcome, next, hreplay, hallows⟩ := h.allows row hlast
      obtain ⟨outcome', next', hreplay', hallows'⟩ := h'.allows row hlast
      obtain ⟨heq, -⟩ := Prod.mk.inj (Except.ok.inj (hreplay.symm.trans hreplay'))
      obtain rfl := Except.ok.inj heq
      exact ExitCode.eq_or_allowsLast_next hallows hallows'
  rcases hnext with heq | ⟨hnext, hnext'⟩
  · exact .inl heq
  · cases hfault : e.finalFault with
    | none => exact .inr ⟨hnext, hnext', .inl hfault⟩
    | some reason =>
      cases hfault' : e'.finalFault with
      | none => exact .inr ⟨hnext, hnext', .inr hfault'⟩
      | some reason' =>
        -- The row of the end state gives one fault only.
        have hlast := List.getLast?_eq_some_getLast hrows
        obtain ⟨next, hreplay⟩ := h.faults reason hfault _ hlast
        obtain ⟨next', hreplay'⟩ := h'.faults reason' hfault' _ hlast
        obtain ⟨heq, -⟩ := Prod.mk.inj (Except.ok.inj (hreplay.symm.trans hreplay'))
        obtain rfl := Except.error.inj heq
        exact .inl (ExitCode.eq_of_finalFault hfault hfault')

/-! ### Receipts -/

/-- A receipt with the same seal and another claim. -/
def SegmentReceipt.withClaim (r : SegmentReceipt) (c : SegmentClaim) : SegmentReceipt :=
  { r with claim := c }

theorem SegmentReceipt.verify_withClaim_iff_provenBy {r : SegmentReceipt} {s : SegmentSeal}
    (hseal : r.decodeSeal = .ok s) (c : SegmentClaim) :
    (r.withClaim c).verify = .ok () ↔ c.ProvenBy s := by
  have hseal' : (r.withClaim c).decodeSeal = .ok s := hseal
  rw [verify_eq_ok_iff]
  constructor
  · rintro ⟨s', hs', hproven⟩
    obtain rfl := Except.ok.inj (hseal'.symm.trans hs')
    exact hproven
  · exact fun hproven => ⟨s, hseal', hproven⟩

/-- The claims that are accepted with the seal of an accepted receipt are those about the same
stretch, of any index, with an exit that the rows justify; and beside the claimed exit the rows
justify only exits that share rows with it. -/
theorem SegmentReceipt.verify_withClaim_iff {r : SegmentReceipt} {s : SegmentSeal}
    (hverify : r.verify = .ok ()) (hseal : r.decodeSeal = .ok s) :
    (∀ c, (r.withClaim c).verify = .ok () ↔
      c.SameStretch r.claim ∧ s.Justifies c.exitCode) ∧
    s.Justifies r.claim.exitCode ∧
    ∀ exit, s.Justifies exit → exit = r.claim.exitCode ∨ exit.SharesRows r.claim.exitCode := by
  have hproven : r.claim.ProvenBy s := (verify_withClaim_iff_provenBy hseal r.claim).mp hverify
  refine ⟨fun c => ?_, hproven.justifies, fun exit hexit => ?_⟩
  · rw [verify_withClaim_iff_provenBy hseal]
    exact hproven.iff_of_proven
  · exact hexit.eq_or_sharesRows (List.ne_nil_of_length_eq_add_one hproven.length_rows)
      hproven.justifies

open HaltingGuest in
/-- What is accepted with the seal of the last instruction of the guest. -/
theorem SegmentReceipt.verify_withClaim_halted :
    (∀ c, ((receipt 1 loaded halted (.halted 7)).withClaim c).verify = .ok () ↔
      c.SameStretch (receipt 1 loaded halted (.halted 7)).claim ∧
        (sealOf loaded halted).Justifies c.exitCode) ∧
    (sealOf loaded halted).Justifies (.halted 7) ∧
    ∀ exit, (sealOf loaded halted).Justifies exit →
      exit = .halted 7 ∨ exit.SharesRows (.halted 7) :=
  verify_withClaim_iff (verify_receipt .halt) (decodeSeal_receipt _ _ _ _)

/-! ### A guest that is stuck -/

namespace StuckGuest

/-- A state at an address where nothing can be fetched. -/
def state : SystemState := .of ⟨.start 0, {}⟩ .zero

/-- The seal of a segment without instructions in this state. -/
def content : SegmentSeal := ⟨HaltingGuest.params, Row.digest { state }, [{ state }]⟩

/-- The receipt of a segment without instructions in this state. -/
def receipt (index : UInt32) (exit : ExitCode) : SegmentReceipt where
  claim := ⟨HaltingGuest.params.configDigest, index, state.commitment, state.commitment, 0, exit,
    .zero⟩
  sealBytes := SegmentSeal.format.encode content

theorem decodeSeal_receipt (index : UInt32) (exit : ExitCode) :
    (receipt index exit).decodeSeal = .ok content := by
  have hlen : content.rows.length < UInt64.size := by
    rw [show content.rows.length = 1 from rfl]
    decide
  refine (SegmentSeal.readsBack hlen fun r hr => ?_).decode_encode
  obtain rfl := List.mem_singleton.mp hr
  exact ⟨by simp, by simp⟩

theorem replay_row : Row.replay HaltingGuest.params { state } =
    .ok (.error (.instructionFault 0), state) :=
  Row.replay_eq_ok_iff.mpr ⟨rfl, rfl, ⟨.start 0, {}⟩, false, .zero, .outside rfl, rfl, rfl⟩

/-- Without instructions the guest has reached the end of its cycles, or its fault. -/
theorem verify_receipt (index : UInt32) {exit : ExitCode}
    (h : exit ∈ [.fault .sessionLimitExceeded, .fault (.instructionFault 0)]) :
    (receipt index exit).verify = .ok () := by
  refine SegmentReceipt.verify_eq_ok_iff.mpr ⟨content, decodeSeal_receipt index exit, ?_⟩
  simp only [List.mem_cons, List.not_mem_nil, or_false] at h
  refine ⟨HaltingGuest.validate_params, rfl, Nat.zero_le _, rfl, ?_, rfl, ?_, ?_, ?_, trivial, ?_⟩
  · rcases h with rfl | rfl <;> simp [receipt, ExitCode.needsInstruction]
  · rintro first ⟨⟩
    rfl
  · rintro last ⟨⟩
    rfl
  · rintro last ⟨⟩
    rfl
  · rintro last ⟨⟩ reason hreason
    rcases h with rfl | rfl
    · simp [receipt, ExitCode.finalFault] at hreason
    · obtain rfl := Option.some.inj hreason
      exact ⟨state, replay_row⟩

/-- What the verifier hashes for the guest: its parameters, its row and its state. -/
def messages : List Bytes :=
  [HaltingGuest.params.preimage.bytes, (Row.preimage { state }).bytes, state.preimage.bytes]

theorem collisionFree_messages : CollisionFree fun x => x ∈ messages :=
  .of_nodup (by decide +kernel)

end StuckGuest

/-- With the seal of the guest that is stuck, claims with another index and with another exit are
accepted, although nothing that is hashed for them collides. The seal of an instruction behind which
the guest goes on is accepted for a split and for the end of the session's cycles. -/
theorem SegmentReceipt.verify_other_claims :
    (∃ r : SegmentReceipt, r.decodeSeal = .ok StuckGuest.content ∧
      CollisionFree (fun x => x ∈ StuckGuest.messages) ∧ r.verify = .ok () ∧
      ({ r.claim with index := 5 } ≠ r.claim ∧
        (r.withClaim { r.claim with index := 5 }).verify = .ok ()) ∧
      ({ r.claim with exitCode := .fault .sessionLimitExceeded } ≠ r.claim ∧
        (r.withClaim { r.claim with exitCode := .fault .sessionLimitExceeded }).verify = .ok ())) ∧
    ∃ r : SegmentReceipt, r.claim.exitCode = .systemSplit ∧ r.verify = .ok () ∧
      (r.withClaim { r.claim with exitCode := .fault .sessionLimitExceeded }).verify = .ok () := by
  have hsplit : (HaltingGuest.receipt 0 _ _ .systemSplit).verify = .ok () :=
    HaltingGuest.verify_receipt HaltingGuest.Instructs.load
  refine ⟨⟨_, StuckGuest.decodeSeal_receipt 0 (.fault (.instructionFault 0)),
    StuckGuest.collisionFree_messages, StuckGuest.verify_receipt 0 (by simp), ⟨?_, ?_⟩, ?_, ?_⟩,
    _, rfl, hsplit, ?_⟩
  · intro h
    exact absurd (congrArg SegmentClaim.index h) (show ¬(5 : UInt32) = 0 by decide)
  · exact StuckGuest.verify_receipt 5 (List.mem_cons_of_mem _ List.mem_cons_self)
  · intro h
    exact absurd (congrArg SegmentClaim.exitCode h)
      (show ¬ExitCode.fault .sessionLimitExceeded = .fault (.instructionFault 0) by decide)
  · exact StuckGuest.verify_receipt 0 List.mem_cons_self
  · have hseal := HaltingGuest.decodeSeal_receipt 0 HaltingGuest.start HaltingGuest.loaded
      .systemSplit
    have hproven := (verify_withClaim_iff_provenBy hseal _).mp hsplit
    refine (verify_withClaim_iff_provenBy hseal _).mpr (hproven.iff_of_proven.mpr
      ⟨⟨rfl, rfl, rfl, rfl, rfl⟩, by simp [ExitCode.needsInstruction], ?_, by
        simp [ExitCode.finalFault]⟩)
    rintro row ⟨⟩
    exact ⟨.next, _, HaltingGuest.replay_row .load, rfl⟩

end ReplayVM
