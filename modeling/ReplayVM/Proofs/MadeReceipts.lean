import ReplayVM.Proofs.Bracketings

/-!
# What lifting and joining make

A lifted receipt says the same as the receipt of the segment that it was made of, and the checks of
a verifier, which are not those of the lift, find nothing wrong with it. A joined receipt counts the
segments, the instructions and the joins of the two that it was made of. Its numbers are words, and
receipts whose numbers are large can be made by anybody, since the binding of a seal is a plain
hash: two receipts that pass all checks have a joined receipt exactly if the numbers fit, and
otherwise the join stops the program.

## Main definitions

* `SegmentReceipt.LiftsTo`: what a lifted receipt says, and who accepts it.
* `SuccinctReceipt.JoinsTo`: what a joined receipt should say.
* `SuccinctReceipt.LacksJoined`: pairs of receipts that should be joined and are not.

## Main results

* `SegmentReceipt.lift_faithful`: which receipts are lifted, and what they are lifted to.
* `SuccinctReceipt.exists_joinsTo_iff`: which receipts have a joined receipt as it should be.
-/

namespace ReplayVM

/-! ### Lifting -/

namespace SegmentReceipt

/-- A succinct receipt that says of a segment what the receipt of the segment says, and that is
accepted by those who accept seals of the development backend. -/
structure LiftsTo (s : SegmentReceipt) (r : SuccinctReceipt) : Prop where
  claim_eq : r.claim = s.claim.succinct
  depth_eq : r.depth = 0
  first_eq : r.span.first = s.claim.index
  count_eq : r.span.count = 1
  cycles_eq : r.span.cycles.toNat = s.claim.instructionCount.toNat
  sound : r.checkIntegrity = .ok ()
  accepted : (Receipt.succinct r).verifyWith ⟨true⟩ = .ok ()
  rejected : (Receipt.succinct r).verifyWith {} = .error .developmentSeal
  claims_eq : (Receipt.succinct r).claim = (Receipt.segment s).claim

variable {s : SegmentReceipt} {r : SuccinctReceipt}

/-- A receipt passes the checks of the lift if it verifies and its seal names the present version of
the programs. -/
theorem checkLift_eq_ok_iff : s.checkLift = .ok () ↔ s.verify = .ok () ∧
    ∃ content, s.decodeSeal = .ok content ∧ content.params.recursionVersion = recursionVersion := by
  simp only [checkLift, bind_eq_ok_iff, mapError_eq_ok_iff, openSeal]
  constructor
  · rintro ⟨⟨⟩, hverify, content, hseal, hversion⟩
    refine ⟨hverify, content, hseal, ?_⟩
    by_contra hne
    rw [if_pos hne] at hversion
    cases hversion
  · rintro ⟨hverify, content, hseal, hversion⟩
    refine ⟨(), hverify, content, hseal, ?_⟩
    rw [if_neg (fun hne => hne hversion)]
    rfl

/-- A lift fails where its checks do. -/
theorem lift_of_checkLift_error {cause : ReceiptError} (h : s.checkLift = .error cause) :
    s.lift = .error (.invalidReceipt cause) := by
  rw [lift, h]
  rfl

/-- What the lift makes of a receipt that it has checked. -/
theorem lift_of_checkLift (h : s.checkLift = .ok ()) :
    s.lift = .ok (.make .lift s.claim.succinct s.liftPreimage.digest 0 s.claim.span) := by
  rw [lift, h]
  rfl

end SegmentReceipt

/-- A receipt whose seal belongs to it is rejected by default. -/
theorem SuccinctReceipt.verifyWith_default_of_checkedSeal {r : SuccinctReceipt}
    {content : RecursionSeal} (h : r.checkedSeal = .ok content) :
    r.verifyWith {} = .error .developmentSeal := by
  simp only [verifyWith, h, bind, Except.bind]
  cases content.backend
  rfl

namespace SegmentReceipt

variable {s : SegmentReceipt} {r : SuccinctReceipt}

/-- A lifted receipt says what the receipt of the segment says. -/
theorem liftsTo_of_lift (h : s.lift = .ok r) : s.LiftsTo r := by
  obtain ⟨-, rfl⟩ := SuccinctReceipt.lift_eq_ok h
  have hseal : (SuccinctReceipt.make .lift s.claim.succinct s.liftPreimage.digest 0
      s.claim.span).checkedSeal =
        .ok (.make .lift s.claim.succinct s.liftPreimage.digest 0 s.claim.span) :=
    SuccinctReceipt.checkedSeal_make rfl (show (1 : UInt32) ≠ 0 by decide) fun _ => rfl
  exact
    { claim_eq := rfl
      depth_eq := rfl
      first_eq := rfl
      count_eq := rfl
      cycles_eq := UInt32.toNat_toUInt64 _
      sound := SuccinctReceipt.checkIntegrity_eq_ok_iff.mpr ⟨_, hseal⟩
      accepted := SuccinctReceipt.verifyWith_of_checkedSeal hseal
      rejected := SuccinctReceipt.verifyWith_default_of_checkedSeal hseal
      claims_eq := rfl }

/-- **Lifting is faithful.** The receipt of a segment is lifted if it verifies and its seal was made
for the first version of the programs. What it is lifted to says the same, and is sound. A receipt
that is not lifted is an invalid one. -/
theorem lift_faithful (s : SegmentReceipt) :
    ((∃ r, s.lift = .ok r) ↔ s.verify = .ok () ∧
      ∃ content, s.decodeSeal = .ok content ∧ content.params.recursionVersion = 1) ∧
    (∀ r, s.lift = .ok r → s.LiftsTo r) ∧
    ∀ e, s.lift = .error e → ∃ cause, e = .invalidReceipt cause := by
  refine ⟨⟨?_, ?_⟩, fun r hr => liftsTo_of_lift hr, fun e he => ?_⟩
  · rintro ⟨r, hr⟩
    cases hcheck : s.checkLift with
    | error cause => exact nomatch (lift_of_checkLift_error hcheck).symm.trans hr
    | ok u => exact checkLift_eq_ok_iff.mp hcheck
  · intro h
    exact ⟨_, lift_of_checkLift (checkLift_eq_ok_iff.mpr h)⟩
  · cases hcheck : s.checkLift with
    | error cause =>
      exact ⟨cause, Except.error.inj (he.symm.trans (lift_of_checkLift_error hcheck))⟩
    | ok u => exact nomatch (lift_of_checkLift hcheck).symm.trans he

end SegmentReceipt

/-! ### Joining -/

namespace SuccinctReceipt

/-- A sound receipt that covers the segments of two receipts, with all numbers counted as they
are. -/
structure JoinsTo (left right joined : SuccinctReceipt) : Prop where
  claim_eq : joined.claim = left.claim.compose right.claim
  sound : joined.checkIntegrity = .ok ()
  first_eq : joined.span.first = left.span.first
  count_eq : joined.span.count.toNat = left.span.count.toNat + right.span.count.toNat
  cycles_eq : joined.span.cycles.toNat = left.span.cycles.toNat + right.span.cycles.toNat
  depth_eq : joined.depth.toNat = max left.depth.toNat right.depth.toNat + 1

variable {left right joined : SuccinctReceipt}

/-- The numbers of a receipt are words. -/
theorem JoinsTo.hasRoom (h : left.JoinsTo right joined) : left.HasRoom right where
  count_lt := h.count_eq ▸ UInt32.toNat_lt_size _
  cycles_lt := h.cycles_eq ▸ UInt64.toNat_lt_size _
  depth_lt := h.depth_eq ▸ UInt32.toNat_lt_size _

/-- What two receipts are joined to has the right numbers, and is sound. -/
theorem joinsTo_of_join (h : left.join right = .ok joined) : left.JoinsTo right joined := by
  have hsound := checkIntegrity_join h
  obtain ⟨-, inputs, depth, span, hspan, hdepth, rfl⟩ := join_eq_ok h
  obtain ⟨hfirst, hcount, hcycles⟩ := SegmentSpan.append?_eq_some_iff.mp hspan
  exact
    { claim_eq := rfl
      sound := hsound
      first_eq := hfirst
      count_eq := hcount
      cycles_eq := hcycles
      depth_eq := joinDepth?_eq_some_iff.mp hdepth }

/-- **Joining is exact where the numbers fit.** Two sound receipts of which one continues the other
are joined to a sound receipt with the right numbers exactly if these numbers are words. Otherwise
the join stops the program. -/
theorem exists_joinsTo_iff (hleft : left.checkIntegrity = .ok ())
    (hright : right.checkIntegrity = .ok ()) (hchain : left.checkChain right = .ok ()) :
    ((∃ joined, left.join right = .ok joined ∧ left.JoinsTo right joined) ↔ left.HasRoom right) ∧
    (left.join right = .error .overflow ↔ ¬left.HasRoom right) := by
  have hexists (hroom : left.HasRoom right) : ∃ joined, left.join right = .ok joined :=
    exists_join_iff.mpr ⟨hleft, hright, hchain, hroom⟩
  refine ⟨⟨?_, fun hroom => ?_⟩, fun hstops hroom => ?_, join_eq_overflow hleft hright hchain⟩
  · rintro ⟨joined, -, hjoins⟩
    exact hjoins.hasRoom
  · obtain ⟨joined, hjoin⟩ := hexists hroom
    exact ⟨joined, hjoin, joinsTo_of_join hjoin⟩
  · obtain ⟨joined, hjoin⟩ := hexists hroom
    exact nomatch hstops.symm.trans hjoin

/-- Two segments that follow each other have a joined receipt. -/
theorem exists_joinsTo_idle :
    (idle 0).checkIntegrity = .ok () ∧ (idle 1).checkIntegrity = .ok () ∧
      (idle 0).checkChain (idle 1) = .ok () ∧
      ∃ joined, (idle 0).join (idle 1) = .ok joined ∧ (idle 0).JoinsTo (idle 1) joined :=
  ⟨checkIntegrity_idle 0, checkIntegrity_idle 1, rfl,
    (exists_joinsTo_iff (checkIntegrity_idle 0) (checkIntegrity_idle 1) rfl).1.mpr
      ⟨by decide, by decide, by decide⟩⟩

/-- A receipt with a seal of its own over any span and at any depth, which covers nothing that was
run. -/
def unbacked (depth : UInt32) (span : SegmentSpan) : SuccinctReceipt :=
  make (.ofDepth depth) ⟨.zero, .zero, .zero, ⟨.systemSplit, .zero⟩⟩ .zero depth span

theorem checkIntegrity_unbacked {depth : UInt32} {span : SegmentSpan} (hcount : span.count ≠ 0)
    (hlift : RecursionProgram.ofDepth depth = .lift → span.count = 1) :
    (unbacked depth span).checkIntegrity = .ok () :=
  checkIntegrity_eq_ok_iff.mpr ⟨_, checkedSeal_make rfl hcount hlift⟩

/-- Two sound receipts of which one continues the other, and whose join stops the program. -/
structure LacksJoined (left right : SuccinctReceipt) : Prop where
  left_sound : left.checkIntegrity = .ok ()
  right_sound : right.checkIntegrity = .ok ()
  chained : left.checkChain right = .ok ()
  stops : left.join right = .error .overflow

theorem lacksJoined_of_not_hasRoom (hleft : left.checkIntegrity = .ok ())
    (hright : right.checkIntegrity = .ok ()) (hchain : left.checkChain right = .ok ())
    (hroom : ¬left.HasRoom right) : left.LacksJoined right :=
  ⟨hleft, hright, hchain, join_eq_overflow hleft hright hchain hroom⟩

/-- Pairs of receipts whose instructions, whose segments and whose joins are too many for one
receipt. -/
theorem not_joinsTo_unbacked :
    (unbacked 0 ⟨0, 1, 0xFFFFFFFFFFFFFFFF⟩).LacksJoined (unbacked 0 ⟨1, 1, 1⟩) ∧
    (unbacked 1 ⟨0, 0xFFFFFFFF, 1⟩).LacksJoined (unbacked 0 ⟨0xFFFFFFFF, 1, 1⟩) ∧
    (unbacked 0xFFFFFFFF ⟨0, 1, 1⟩).LacksJoined (unbacked 0 ⟨1, 1, 1⟩) := by
  refine ⟨lacksJoined_of_not_hasRoom ?_ ?_ rfl ?_, lacksJoined_of_not_hasRoom ?_ ?_ rfl ?_,
    lacksJoined_of_not_hasRoom ?_ ?_ rfl ?_⟩
  · exact checkIntegrity_unbacked (by decide) (by decide)
  · exact checkIntegrity_unbacked (by decide) (by decide)
  · exact fun hroom => absurd hroom.cycles_lt (by decide)
  · exact checkIntegrity_unbacked (by decide) (by decide)
  · exact checkIntegrity_unbacked (by decide) (by decide)
  · exact fun hroom => absurd hroom.count_lt (by decide)
  · exact checkIntegrity_unbacked (by decide) (by decide)
  · exact checkIntegrity_unbacked (by decide) (by decide)
  · exact fun hroom => absurd hroom.depth_lt (by decide)

end SuccinctReceipt

end ReplayVM
