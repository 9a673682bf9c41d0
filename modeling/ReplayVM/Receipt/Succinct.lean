import ReplayVM.Codec.Machine
import ReplayVM.Overflow
import ReplayVM.Receipt.Segment

/-!
# Succinct receipts

A succinct receipt covers one segment or a chain of them. Its claim goes from the start of the first
to the end of the last; its seal binds the claim to what was checked when the receipt was made, to
the depth of the tree of joins, and to the span of segments. The binding is a hash that anybody can
compute, so a seal of this backend convinces nobody on its own.

## Main definitions

* `SuccinctClaim`, `SuccinctClaim.compose`, `SegmentClaim.succinct`.
* `SegmentSpan`: the covered segments.
* `RecursionProgram.controlId`: the name of the program that made a receipt.
* `RecursionSeal`, `RecursionSeal.make`, `RecursionSeal.isBound`.
* `SuccinctReceipt`.
-/

namespace ReplayVM

open Format

/-! ### Claims -/

/-- How execution ended, and the running hash of the journal there. -/
structure ExitSummary where
  exitCode : ExitCode
  outputDigest : Digest
  deriving DecidableEq

/-- An exit, then the hash of the journal. -/
def ExitSummary.format : Format ExitSummary :=
  (ExitCode.format.pair Digest.format).iso
    (fun (exit, output) => ⟨exit, output⟩) (fun e => (e.exitCode, e.outputDigest))

/-- What a succinct receipt proves. -/
structure SuccinctClaim where
  configDigest : Digest
  startCommitment : Digest
  endCommitment : Digest
  exit : ExitSummary
  deriving DecidableEq

namespace SuccinctClaim

/-- What is hashed for a claim. -/
def preimage (c : SuccinctClaim) : Preimage where
  tag := "zkc.succinct_claim.v1"
  fields := [.digest c.configDigest, .digest c.startCommitment, .digest c.endCommitment] ++
    c.exit.exitCode.fields ++ [.digest c.exit.outputDigest]

/-- The commitment to a claim. -/
def digest (c : SuccinctClaim) : Digest := c.preimage.digest

/-- The claim that covers one claim followed by another. -/
def compose (left right : SuccinctClaim) : SuccinctClaim where
  configDigest := left.configDigest
  startCommitment := left.startCommitment
  endCommitment := right.endCommitment
  exit := right.exit

/-- The fields of a claim. -/
def format : Format SuccinctClaim :=
  (Digest.format.pair (Digest.format.pair (Digest.format.pair ExitSummary.format))).iso
    (fun (config, start, stop, exit) => ⟨config, start, stop, exit⟩)
    (fun c => (c.configDigest, c.startCommitment, c.endCommitment, c.exit))

end SuccinctClaim

/-- The claim about a segment, without its place in the chain and its length. -/
def SegmentClaim.succinct (c : SegmentClaim) : SuccinctClaim where
  configDigest := c.configDigest
  startCommitment := c.startCommitment
  endCommitment := c.endCommitment
  exit := ⟨c.exitCode, c.outputDigest⟩

/-- The segments that a receipt covers. -/
structure SegmentSpan where
  first : UInt32
  count : UInt32
  /-- The number of instructions of all of them. -/
  cycles : UInt64
  deriving DecidableEq

namespace SegmentSpan

/-- The index behind the last segment. -/
def stop (s : SegmentSpan) : Nat := s.first.toNat + s.count.toNat

/-- The span of one span followed by another, if its numbers fit. -/
def append? (left right : SegmentSpan) : Option SegmentSpan := do
  let count ← word? (left.count.toNat + right.count.toNat)
  let cycles ← long? (left.cycles.toNat + right.cycles.toNat)
  return ⟨left.first, count, cycles⟩

/-- The three numbers. -/
def format : Format SegmentSpan :=
  (uint32.pair (uint32.pair uint64)).iso
    (fun (first, count, cycles) => ⟨first, count, cycles⟩) (fun s => (s.first, s.count, s.cycles))

end SegmentSpan

/-! ### Programs and seals -/

/-- The version of the programs below. -/
def recursionVersion : UInt32 := 1

/-- What makes seals. -/
inductive RecursionBackend where
  /-- Checks its inputs and writes down a hash. -/
  | development
  deriving DecidableEq

namespace RecursionBackend

/-- The name that enters the hashes. -/
def name : RecursionBackend → String
  | .development => "dev"

/-- The number of the backend. -/
def format : Format RecursionBackend where
  write
    | .development => uint32.write 0
  read := do
    match ← uint32.read with
    | 0 => return .development
    | tag => throw (.unknownTag tag.toNat)

end RecursionBackend

/-- The two ways of making a succinct receipt. -/
inductive RecursionProgram where
  | lift
  | join
  deriving DecidableEq

namespace RecursionProgram

/-- The name that enters the control id. -/
def name : RecursionProgram → String
  | .lift => "lift"
  | .join => "join"

/-- What is hashed for the control id of a program. -/
def controlPreimage (p : RecursionProgram) (backend : RecursionBackend) (config : Digest) :
    Preimage where
  tag := "zkc.recursion"
  fields := [.word recursionVersion, .bytes (Bytes.ofString backend.name),
    .bytes (Bytes.ofString p.name), .digest config]

/-- The name of a program under a backend and the commitment to the parameters. -/
def controlId (p : RecursionProgram) (backend : RecursionBackend) (config : Digest) : Digest :=
  (p.controlPreimage backend config).digest

/-- The program that makes receipts of a depth. -/
def ofDepth (depth : UInt32) : RecursionProgram := if depth = 0 then .lift else .join

end RecursionProgram

/-- What binds a claim to the checked inputs. -/
structure RecursionSeal where
  backend : RecursionBackend
  controlId : Digest
  claimDigest : Digest
  /-- The commitment to the checked inputs. -/
  inputsDigest : Digest
  binding : Digest
  deriving DecidableEq

namespace RecursionSeal

/-- What is hashed for the binding of a seal. -/
def bindingPreimage (s : RecursionSeal) (depth : UInt32) (span : SegmentSpan) : Preimage where
  tag := "zkc.recursion.binding.v1"
  fields := [.bytes (Bytes.ofString s.backend.name), .digest s.controlId, .digest s.claimDigest,
    .digest s.inputsDigest, .word depth, .word span.first, .word span.count, .long span.cycles]

/-- The binding that belongs to a seal at a depth and over a span. -/
def bindingFor (s : RecursionSeal) (depth : UInt32) (span : SegmentSpan) : Digest :=
  (s.bindingPreimage depth span).digest

/-- Whether a seal is bound to a depth and a span. -/
def isBound (s : RecursionSeal) (depth : UInt32) (span : SegmentSpan) : Bool :=
  s.binding = s.bindingFor depth span

/-- The seal of a claim whose inputs were checked. -/
def make (program : RecursionProgram) (claim : SuccinctClaim) (inputs : Digest) (depth : UInt32)
    (span : SegmentSpan) : RecursionSeal :=
  let unbound : RecursionSeal :=
    { backend := .development
      controlId := program.controlId .development claim.configDigest
      claimDigest := claim.digest
      inputsDigest := inputs
      binding := .zero }
  { unbound with binding := unbound.bindingFor depth span }

/-- The fields of a seal. -/
def format : Format RecursionSeal :=
  (RecursionBackend.format.pair (Digest.format.pair (Digest.format.pair (Digest.format.pair
    Digest.format)))).iso
    (fun (backend, control, claim, inputs, binding) => ⟨backend, control, claim, inputs, binding⟩)
    (fun s => (s.backend, s.controlId, s.claimDigest, s.inputsDigest, s.binding))

end RecursionSeal

/-! ### Receipts -/

/-- A claim about a chain of segments with its seal. -/
structure SuccinctReceipt where
  claim : SuccinctClaim
  /-- The encoded seal. -/
  sealBytes : Bytes
  /-- The height of the tree of joins, 0 for a single segment. -/
  depth : UInt32
  controlId : Digest
  span : SegmentSpan
  deriving DecidableEq

namespace SuccinctReceipt

/-- The receipt that a program makes for a claim whose inputs were checked. -/
def make (program : RecursionProgram) (claim : SuccinctClaim) (inputs : Digest) (depth : UInt32)
    (span : SegmentSpan) : SuccinctReceipt :=
  let content := RecursionSeal.make program claim inputs depth span
  { claim := claim
    sealBytes := RecursionSeal.format.encode content
    depth := depth
    controlId := content.controlId
    span := span }

/-- The seal that the bytes encode. -/
def decodeSeal (r : SuccinctReceipt) : Except CodecError RecursionSeal :=
  RecursionSeal.format.decode r.sealBytes

/-- Claim, seal, depth, control id and span. -/
def format : Format SuccinctReceipt :=
  (SuccinctClaim.format.pair (bytes.pair (uint32.pair (Digest.format.pair
    SegmentSpan.format)))).iso
    (fun (claim, bytes, depth, control, span) => ⟨claim, bytes, depth, control, span⟩)
    (fun r => (r.claim, r.sealBytes, r.depth, r.controlId, r.span))

end SuccinctReceipt

end ReplayVM
