import ReplayVM.Proofs.Bracketings
import ReplayVM.Proofs.Commitments
import ReplayVM.Proofs.HashEvaluation

/-!
# What a seal of a succinct receipt binds

The seal of a succinct receipt names the program that made it and the claim, and its binding is a
hash over both, the depth and the span. A sound receipt agrees with its seal in all of this, so the
seal determines the receipt as far as what is hashed does not collide. A receipt that was altered
but kept its seal is therefore refused wherever its seal is opened.

## Main definitions

* `SuccinctReceipt.SealedBy`: a receipt that agrees with what its seal says.
* `SuccinctReceipt.HashedInSeal`: the byte strings that are hashed for a seal.
* `SuccinctReceipt.Refused`: a receipt that is an invalid one in every check of it.

## Main results

* `SuccinctReceipt.checkedSeal_eq_ok_iff`: which seals are found to belong to a receipt.
* `SuccinctReceipt.refused_of_checkIntegrity_ne`: receipts that are not sound are refused.
* `SuccinctReceipt.seal_determines`: sound receipts with one seal are equal.
-/

namespace ReplayVM

namespace SuccinctReceipt

variable {r r' : SuccinctReceipt} {s : RecursionSeal}

/-! ### Sound receipts -/

/-- A receipt whose seal decodes and was made for its claim, its depth and its span, by the program
that makes receipts of this depth under its parameters. -/
structure SealedBy (r : SuccinctReceipt) (s : RecursionSeal) : Prop where
  decodes : r.decodeSeal = .ok s
  control_eq : r.controlId =
    (RecursionProgram.ofDepth r.depth).controlId s.backend r.claim.configDigest
  sealControl_eq : s.controlId = r.controlId
  count_ne_zero : r.span.count ≠ 0
  count_eq_one : RecursionProgram.ofDepth r.depth = .lift → r.span.count = 1
  claimDigest_eq : s.claimDigest = r.claim.digest
  binding_eq : s.binding = s.bindingFor r.depth r.span

theorem checkSeal_eq_ok_iff (hdecodes : r.decodeSeal = .ok s) :
    r.checkSeal s = .ok () ↔ r.SealedBy s := by
  constructor
  · intro h
    simp only [checkSeal] at h
    split_ifs at h with hcontrol hspan hclaim hbound
    simp only [not_or, not_not, not_and] at hcontrol hspan hclaim
    simp only [Bool.not_eq_true', Bool.not_eq_false, RecursionSeal.isBound,
      decide_eq_true_eq] at hbound
    exact ⟨hdecodes, hcontrol.1, hcontrol.2, hspan.1, hspan.2, hclaim, hbound⟩
  · intro h
    have hspan : ¬(r.span.count = 0 ∨
        RecursionProgram.ofDepth r.depth = .lift ∧ r.span.count ≠ 1) := by
      rintro (hzero | ⟨hlift, hne⟩)
      · exact h.count_ne_zero hzero
      · exact hne (h.count_eq_one hlift)
    simp only [checkSeal, ← h.control_eq, h.sealControl_eq, h.claimDigest_eq, RecursionSeal.isBound,
      ← h.binding_eq, if_neg hspan, ne_eq, not_true_eq_false, or_self, if_false, decide_true,
      Bool.not_true, Bool.false_eq_true]

/-- A seal is found to belong to a receipt if the receipt agrees with it. -/
theorem checkedSeal_eq_ok_iff : r.checkedSeal = .ok s ↔ r.SealedBy s := by
  simp only [checkedSeal, openSeal, bind_eq_ok_iff, mapError_eq_ok_iff, pure, Except.pure,
    Except.ok.injEq]
  constructor
  · rintro ⟨content, hdecodes, ⟨⟩, hcheck, rfl⟩
    exact (checkSeal_eq_ok_iff hdecodes).mp hcheck
  · intro h
    exact ⟨s, h.decodes, (), (checkSeal_eq_ok_iff h.decodes).mpr h, rfl⟩

/-! ### Refused receipts -/

/-- A receipt that is found invalid where its soundness is checked, on both sides of a join, if the
other receipt is not found invalid before it, and in every verifier. -/
structure Refused (r : SuccinctReceipt) : Prop where
  unsound : ∃ cause, r.checkIntegrity = .error (.invalidReceipt cause)
  left_of_join : ∀ other, ∃ cause, r.join other = .error (.reported (.invalidReceipt cause))
  right_of_join : ∀ other, ∃ cause, join other r = .error (.reported (.invalidReceipt cause))
  unverified : ∀ ctx, ∃ cause, r.verifyWith ctx = .error (.invalidReceipt cause)

/-- A seal that does not belong to its receipt makes the receipt an invalid one. -/
theorem invalid_of_checkedSeal_error {e : RecursionError} (h : r.checkedSeal = .error e) :
    ∃ cause, e = .invalidReceipt cause := by
  rw [checkedSeal, openSeal] at h
  cases hdecodes : r.decodeSeal with
  | error cause =>
    rw [hdecodes] at h
    exact ⟨_, (Except.error.inj h).symm⟩
  | ok s =>
    cases hcheck : r.checkSeal s with
    | error cause =>
      simp only [hdecodes, Except.mapError, bind, Except.bind, hcheck] at h
      exact ⟨cause, (Except.error.inj h).symm⟩
    | ok u =>
      simp only [hdecodes, Except.mapError, bind, Except.bind, hcheck] at h
      cases h

/-- All checks of a receipt begin with its seal. -/
theorem refused_of_checkIntegrity_ne (h : r.checkIntegrity ≠ .ok ()) : r.Refused := by
  obtain ⟨e, he⟩ : ∃ e, r.checkedSeal = .error e := by
    cases hseal : r.checkedSeal with
    | error e => exact ⟨e, rfl⟩
    | ok s => exact absurd (checkIntegrity_eq_ok_iff.mpr ⟨s, hseal⟩) h
  obtain ⟨cause, rfl⟩ := invalid_of_checkedSeal_error he
  refine ⟨⟨cause, ?_⟩, fun other => ⟨cause, ?_⟩, fun other => ?_, fun ctx => ⟨cause, ?_⟩⟩
  · rw [checkIntegrity, he]
    rfl
  · rw [join, he]
    rfl
  · cases hother : other.checkedSeal with
    | error e =>
      obtain ⟨cause', rfl⟩ := invalid_of_checkedSeal_error hother
      exact ⟨cause', by rw [join, hother]; rfl⟩
    | ok s => exact ⟨cause, by rw [join, hother, he]; rfl⟩
  · rw [verifyWith, he]
    rfl

/-! ### One seal, one receipt -/

/-- What is hashed for the claim of a receipt and for the binding of its seal. -/
def HashedInSeal (r : SuccinctReceipt) (x : Bytes) : Prop :=
  x = r.claim.preimage.bytes ∨
    ∃ s, r.decodeSeal = .ok s ∧ x = (s.bindingPreimage r.depth r.span).bytes

/-- Receipts that agree with one seal are equal, unless what is hashed for them collides. -/
theorem SealedBy.eq_of_sealBytes_eq
    (hfree : CollisionFree fun x => r.HashedInSeal x ∨ r'.HashedInSeal x) (hr : r.SealedBy s)
    (hr' : r'.SealedBy s) (hseal : r'.sealBytes = r.sealBytes) : r' = r := by
  have hclaim : r'.claim = r.claim :=
    SuccinctClaim.eq_of_bytes_eq (hfree _ _ (.inr (.inl rfl)) (.inl (.inl rfl))
      (hr'.claimDigest_eq.symm.trans hr.claimDigest_eq))
  obtain ⟨-, hdepth, hspan⟩ := RecursionSeal.eq_of_bytes_eq
    (hfree _ _ (.inr (.inr ⟨s, hr'.decodes, rfl⟩)) (.inl (.inr ⟨s, hr.decodes, rfl⟩))
      (hr'.binding_eq.symm.trans hr.binding_eq))
  have hcontrol : r'.controlId = r.controlId := hr'.sealControl_eq.symm.trans hr.sealControl_eq
  rcases r with ⟨claim, sealBytes, depth, controlId, span⟩
  rcases r' with ⟨claim', sealBytes', depth', controlId', span'⟩
  simp only at hclaim hseal hdepth hcontrol hspan
  rw [hclaim, hseal, hdepth, hcontrol, hspan]

/-- **A seal determines its receipt.** Of the receipts with the seal of a sound one no other is
sound, unless what is hashed for the claims and the bindings of both collides. Every other one is
refused as an invalid receipt by all that check it. -/
theorem seal_determines (hfree : CollisionFree fun x => r.HashedInSeal x ∨ r'.HashedInSeal x)
    (hr : r.checkIntegrity = .ok ()) (hseal : r'.sealBytes = r.sealBytes) :
    (r'.checkIntegrity = .ok () → r'.claim = r.claim ∧ r'.depth = r.depth ∧
      r'.controlId = r.controlId ∧ r'.span = r.span) ∧
    (r' ≠ r → r'.Refused) := by
  have heq : r'.checkIntegrity = .ok () → r' = r := by
    intro hr'
    obtain ⟨s, hs⟩ := checkIntegrity_eq_ok_iff.mp hr
    obtain ⟨s', hs'⟩ := checkIntegrity_eq_ok_iff.mp hr'
    have hsealed := checkedSeal_eq_ok_iff.mp hs
    have hsealed' := checkedSeal_eq_ok_iff.mp hs'
    have hsame : r'.decodeSeal = r.decodeSeal := by rw [decodeSeal, decodeSeal, hseal]
    obtain rfl : s' = s :=
      Except.ok.inj (hsealed'.decodes.symm.trans (hsame.trans hsealed.decodes))
    exact hsealed.eq_of_sealBytes_eq hfree hsealed' hseal
  refine ⟨fun hr' => ?_, fun hne => refused_of_checkIntegrity_ne (mt heq hne)⟩
  rw [heq hr']
  exact ⟨rfl, rfl, rfl, rfl⟩

/-! ### A receipt with another depth -/

/-- The seal of a lifted receipt of a segment that ends where it started. -/
theorem decodeSeal_idle (index : UInt32) : (idle index).decodeSeal =
    .ok (.make .lift (idle index).claim .zero 0 (idle index).span) :=
  (RecursionSeal.lawful _).decode_encode

/-- What is hashed for the claim of a lifted receipt, and for its binding at a depth. -/
def idleMessages (index : UInt32) (depths : List UInt32) : List Bytes :=
  (idle index).claim.preimage.bytes :: depths.map fun depth =>
    ((RecursionSeal.make .lift (idle index).claim .zero 0 (idle index).span).bindingPreimage depth
      (idle index).span).bytes

/-- A lifted receipt is refused at a depth that is not its own. -/
theorem seal_determines_idle : (idle 0).checkIntegrity = .ok () ∧
    ({ idle 0 with depth := 1 } : SuccinctReceipt).Refused := by
  have hfree : CollisionFree fun x => x ∈ idleMessages 0 [0, 1] := by
    refine .of_nodup ?_
    simp only [idleMessages, RecursionSeal.bindingPreimage, RecursionSeal.make,
      RecursionProgram.controlId, SuccinctClaim.digest, Preimage.digest, Digest.hash_eq_evaluate]
    decide +kernel
  have hhashed : CollisionFree fun x => (idle 0).HashedInSeal x ∨
      ({ idle 0 with depth := 1 } : SuccinctReceipt).HashedInSeal x := by
    refine hfree.mono ?_
    rintro x ((rfl | ⟨s, hs, rfl⟩) | rfl | ⟨s, hs, rfl⟩)
    · exact List.mem_cons_self
    · obtain rfl := Except.ok.inj (hs.symm.trans (decodeSeal_idle 0))
      exact List.mem_cons_of_mem _ List.mem_cons_self
    · exact List.mem_cons_self
    · obtain rfl := Except.ok.inj (hs.symm.trans (decodeSeal_idle 0))
      exact List.mem_cons_of_mem _ (List.mem_cons_of_mem _ List.mem_cons_self)
  have hdetermines := (seal_determines hhashed (checkIntegrity_idle 0) rfl).2
  refine ⟨checkIntegrity_idle 0, hdetermines fun h => ?_⟩
  exact absurd (congrArg depth h) (show ¬(1 : UInt32) = 0 by decide)

end SuccinctReceipt

end ReplayVM
