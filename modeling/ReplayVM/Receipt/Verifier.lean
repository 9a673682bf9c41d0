import ReplayVM.Program.Basic
import ReplayVM.Receipt.Error
import ReplayVM.Text.Blank

/-!
# Verifying succinct receipts

A succinct receipt is sound in itself when its seal decodes and is bound to everything else in it.
Whether that convinces is up to the verifier: a seal of the development backend does so only where
the verifier is told to accept it. A whole session is verified by also comparing the claim with the
program that ran and the journal it produced.

## Main definitions

* `SuccinctReceipt.checkedSeal`, `SuccinctReceipt.checkIntegrity`.
* `VerifierContext`, `VerifierContext.ofFlag`.
* `SuccinctReceipt.verifyWith`, `SuccinctReceipt.accepts`, `SuccinctReceipt.verifySessionWith`.
* `Receipt`: a receipt of either kind, `Receipt.verifyWith`.
-/

namespace ReplayVM

namespace SuccinctReceipt

/-- Checks a seal against the receipt that carries it. -/
def checkSeal (r : SuccinctReceipt) (s : RecursionSeal) : Except ReceiptError Unit :=
  let program := RecursionProgram.ofDepth r.depth
  if r.controlId ≠ program.controlId s.backend r.claim.configDigest ∨ s.controlId ≠ r.controlId then
    .error .controlId
  else if r.span.count = 0 ∨ (program = .lift ∧ r.span.count ≠ 1) then .error .span
  else if s.claimDigest ≠ r.claim.digest then .error .claim
  else if !s.isBound r.depth r.span then .error .binding
  else .ok ()

/-- The seal of a receipt, if it decodes. -/
def openSeal (r : SuccinctReceipt) : Except RecursionError RecursionSeal :=
  r.decodeSeal.mapError fun cause => .invalidReceipt (.undecodable cause)

/-- The seal of a receipt that is sound in itself. -/
def checkedSeal (r : SuccinctReceipt) : Except RecursionError RecursionSeal := do
  let content ← r.openSeal
  (r.checkSeal content).mapError .invalidReceipt
  return content

/-- Checks that a receipt is sound in itself. -/
def checkIntegrity (r : SuccinctReceipt) : Except RecursionError Unit := do
  let _ ← r.checkedSeal

end SuccinctReceipt

/-- What a verifier accepts. -/
structure VerifierContext where
  /-- Whether seals of the development backend are accepted. -/
  devMode : Bool := false
  deriving DecidableEq

namespace VerifierContext

/-- The texts that turn a flag on. -/
def onTexts : List String := ["1", "true", "yes"]

/-- The context for the value of the development flag, which may be missing. Blanks at its ends and
the case of ASCII letters do not matter. -/
def ofFlag (value : Option String) : VerifierContext :=
  ⟨value.any fun v => (Blank.trim v).toLower ∈ onTexts⟩

/-- Whether a verifier accepts seals of a backend. -/
def accepts (ctx : VerifierContext) : RecursionBackend → Bool
  | .development => ctx.devMode

end VerifierContext

namespace SuccinctReceipt

/-- Verifies a receipt, whatever its claim says. -/
def verifyWith (ctx : VerifierContext) (r : SuccinctReceipt) : Except RecursionError Unit := do
  let content ← r.checkedSeal
  if !ctx.accepts content.backend then throw .developmentSeal

/-- Whether an exit is a regular end of the guest. -/
def isHalted : ExitCode → Bool
  | .halted _ => true
  | _ => false

/-- Whether a receipt is valid and shows that the guest halted under the given parameters with the
given journal. -/
def accepts (ctx : VerifierContext) (r : SuccinctReceipt) (config output : Digest) : Bool :=
  (r.verifyWith ctx).isOk && r.claim.configDigest = config && r.claim.exit.outputDigest = output &&
    isHalted r.claim.exit.exitCode

/-- Whether a receipt shows a whole session of a program, from its entry point to a halt with the
given journal. -/
def verifySessionWith (ctx : VerifierContext) (r : SuccinctReceipt) (p : Program)
    (output : Digest) : Bool :=
  r.claim.startCommitment = p.entryState && r.accepts ctx p.configDigest output

/-- Verification of a whole session by a verifier with the default context. -/
def verifySession (r : SuccinctReceipt) (p : Program) (output : Digest) : Bool :=
  r.verifySessionWith {} p output

end SuccinctReceipt

/-! ### Receipts of either kind -/

/-- A receipt of a segment or of a chain of them. -/
inductive Receipt where
  | segment (receipt : SegmentReceipt)
  | succinct (receipt : SuccinctReceipt)
  deriving DecidableEq

namespace Receipt

open Format

/-- The claim of a receipt, in the form without places and lengths. -/
def claim : Receipt → SuccinctClaim
  | .segment r => r.claim.succinct
  | .succinct r => r.claim

/-- The commitment to the parameters that a receipt names. -/
def configDigest (r : Receipt) : Digest := r.claim.configDigest

/-- Verifies a receipt of either kind. -/
def verifyWith (ctx : VerifierContext) : Receipt → Except RecursionError Unit
  | .segment r => r.verify.mapError fun cause => .invalidReceipt (.segment cause)
  | .succinct r => r.verifyWith ctx

/-- The kind of a receipt, then the receipt. -/
def format : Format Receipt where
  write
    | .segment r => uint32.write 0 ++ SegmentReceipt.format.write r
    | .succinct r => uint32.write 1 ++ SuccinctReceipt.format.write r
  read := do
    match ← uint32.read with
    | 0 => return .segment (← SegmentReceipt.format.read)
    | 1 => return .succinct (← SuccinctReceipt.format.read)
    | tag => throw (.unknownTag tag.toNat)

end Receipt

end ReplayVM
