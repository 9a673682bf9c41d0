import ReplayVM.Receipt.Verifier

/-!
# Lifting and joining receipts

Lifting turns the receipt of a segment into a succinct one, joining turns two succinct receipts that
chain into one. Both check their inputs completely and bind what they checked into the seal.

## Main definitions

* `SegmentReceipt.lift`.
* `SuccinctReceipt.checkChain`, `SuccinctReceipt.join`.
-/

namespace ReplayVM

/-! ### Lifting -/

/-- What is hashed for the checked input of a lift: the claim of the segment and its seal. -/
def SegmentReceipt.liftPreimage (r : SegmentReceipt) : Preimage where
  tag := "zkc.recursion.lift.inputs"
  fields := [.digest r.claim.digest, .digest r.sealDigest]

/-- The span of a single segment. -/
def SegmentClaim.span (c : SegmentClaim) : SegmentSpan :=
  ⟨c.index, 1, c.instructionCount.toUInt64⟩

namespace SegmentReceipt

/-- Checks that the receipt of a segment verifies and was made for the present programs. -/
def checkLift (r : SegmentReceipt) : Except ReceiptError Unit := do
  r.verify.mapError (.lifted r.claim.index)
  let content ← r.openSeal.mapError (.lifted r.claim.index)
  if content.params.recursionVersion ≠ recursionVersion then
    throw (.unsupportedVersion r.claim.index content.params.recursionVersion)

/-- The succinct receipt of a segment. -/
def lift (r : SegmentReceipt) : Except RecursionError SuccinctReceipt := do
  r.checkLift.mapError .invalidReceipt
  return .make .lift r.claim.succinct r.liftPreimage.digest 0 r.claim.span

end SegmentReceipt

/-! ### Joining -/

/-- What is hashed for the checked inputs of a join: the claims and the bindings of both. -/
def RecursionSeal.joinPreimage (left right : RecursionSeal) : Preimage where
  tag := "zkc.recursion.join.inputs"
  fields := [.digest left.claimDigest, .digest left.binding, .digest right.claimDigest,
    .digest right.binding]

namespace SuccinctReceipt

/-- Checks that one receipt continues another: under the same parameters, from the state in which
the other ends, behind an exit after which execution can go on, and with the next segment. -/
def checkChain (left right : SuccinctReceipt) : Except RecursionError Unit :=
  if left.claim.configDigest ≠ right.claim.configDigest then .error .configMismatch
  else if left.claim.endCommitment ≠ right.claim.startCommitment then
    .error (.chainMismatch (.states left.claim.endCommitment right.claim.startCommitment))
  else if !left.claim.exit.exitCode.isContinuable then
    .error (.chainMismatch (.exit left.claim.exit.exitCode))
  else if left.span.stop ≠ right.span.first.toNat then
    .error (.chainMismatch
      (.indices left.span.first.toNat left.span.stop right.span.first.toNat))
  else .ok ()

/-- The depth of a receipt joined from two others, if it fits. -/
def joinDepth? (left right : SuccinctReceipt) : Option UInt32 :=
  word? ((max left.depth right.depth).toNat + 1)

/-- The receipt that covers one receipt followed by another. Numbers of the two that cannot be added
stop the program: nothing is known of them before, as a seal is made for any numbers. -/
def join (left right : SuccinctReceipt) : Except (Stop RecursionError) SuccinctReceipt := do
  let leftSeal ← left.checkedSeal.mapError .reported
  let rightSeal ← right.checkedSeal.mapError .reported
  (left.checkChain right).mapError .reported
  let span ← Stop.fit (left.span.append? right.span)
  let depth ← Stop.fit (left.joinDepth? right)
  return .make .join (left.claim.compose right.claim) (leftSeal.joinPreimage rightSeal).digest depth
    span

end SuccinctReceipt

end ReplayVM
