import ReplayVM.Codec.Witness
import ReplayVM.Exit
import ReplayVM.Witness.Row

/-!
# Segment receipts

A segment receipt is a claim about a segment with a seal that proves it. The claim names the start
and end state and the exit by commitments; the seal is the encoded witness of the segment, and can
be checked without the segment.

## Main definitions

* `SegmentClaim`, `SegmentClaim.digest`.
* `SegmentSeal`: parameters, trace root and rows.
* `SegmentReceipt`, `SegmentReceipt.decodeSeal`.
-/

namespace ReplayVM

open Format

/-- What a segment receipt proves. -/
structure SegmentClaim where
  configDigest : Digest
  index : UInt32
  startCommitment : Digest
  endCommitment : Digest
  instructionCount : UInt32
  exitCode : ExitCode
  /-- The running hash of the journal at the end. -/
  outputDigest : Digest
  deriving DecidableEq

namespace SegmentClaim

/-- What is hashed for a claim. -/
def preimage (c : SegmentClaim) : Preimage where
  tag := "zkc.segment_claim.v1"
  fields := [.digest c.configDigest, .word c.index, .digest c.startCommitment,
    .digest c.endCommitment, .word c.instructionCount] ++ c.exitCode.fields ++
    [.digest c.outputDigest]

/-- The commitment to a claim. -/
def digest (c : SegmentClaim) : Digest := c.preimage.digest

/-- The fields of a claim. -/
def format : Format SegmentClaim :=
  (Digest.format.pair (uint32.pair (Digest.format.pair (Digest.format.pair (uint32.pair
    (ExitCode.format.pair Digest.format)))))).iso
    (fun (config, index, start, stop, count, exit, output) =>
      ⟨config, index, start, stop, count, exit, output⟩)
    (fun c => (c.configDigest, c.index, c.startCommitment, c.endCommitment, c.instructionCount,
      c.exitCode, c.outputDigest))

end SegmentClaim

/-- The witness of a segment and a commitment to its rows. -/
structure SegmentSeal where
  params : Params
  /-- The root over the digests of the rows. -/
  traceRoot : Digest
  /-- One row for each instruction, and one for the end state. -/
  rows : List Row
  deriving DecidableEq

/-- Parameters, root and rows. -/
def SegmentSeal.format : Format SegmentSeal :=
  (Params.format.pair (Digest.format.pair (list Row.format))).iso
    (fun (params, root, rows) => ⟨params, root, rows⟩) (fun s => (s.params, s.traceRoot, s.rows))

/-- The way in which a seal proves a segment. -/
inductive ProofSystem where
  /-- Every step is in the seal and is replayed. -/
  | traceReplay
  deriving DecidableEq

/-- The number of the proof system. -/
def ProofSystem.format : Format ProofSystem where
  write
    | .traceReplay => uint32.write 0
  read := do
    match ← uint32.read with
    | 0 => return .traceReplay
    | tag => throw (.unknownTag tag.toNat)

/-- A claim with a seal that proves it. -/
structure SegmentReceipt where
  claim : SegmentClaim
  /-- The encoded seal. -/
  sealBytes : Bytes
  proofSystem : ProofSystem := .traceReplay
  deriving DecidableEq

namespace SegmentReceipt

/-- The commitment to the bytes of the seal. -/
def sealDigest (r : SegmentReceipt) : Digest := Digest.hash r.sealBytes

/-- The seal that the bytes encode. -/
def decodeSeal (r : SegmentReceipt) : Except CodecError SegmentSeal :=
  SegmentSeal.format.decode r.sealBytes

/-- Claim, seal and proof system. -/
def format : Format SegmentReceipt :=
  (SegmentClaim.format.pair (bytes.pair ProofSystem.format)).iso
    (fun (claim, bytes, system) => ⟨claim, bytes, system⟩)
    (fun r => (r.claim, r.sealBytes, r.proofSystem))

end SegmentReceipt

end ReplayVM
