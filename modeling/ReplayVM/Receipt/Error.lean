import ReplayVM.Receipt.Succinct
import ReplayVM.Receipt.Verify

/-!
# Recursion errors

Why receipts are not lifted, not joined or not accepted.
-/

namespace ReplayVM

/-- What is wrong with a receipt. -/
inductive ReceiptError where
  /-- The receipt of a segment does not verify. -/
  | segment (cause : VerificationError)
  /-- The receipt of a segment to be lifted does not verify. -/
  | lifted (index : UInt32) (cause : VerificationError)
  /-- A segment was proven for other programs than the present ones. -/
  | unsupportedVersion (index version : UInt32)
  | undecodable (cause : CodecError)
  | controlId
  | span
  | claim
  | binding

/-- The wording of an error. -/
def ReceiptError.message : ReceiptError → String
  | .segment cause => cause.message
  | .lifted index cause => s!"segment {index}: " ++ cause.message
  | .unsupportedVersion index version =>
    s!"segment {index}: recursion version {version} is not supported"
  | .undecodable cause => "malformed seal: " ++ cause.message
  | .controlId => "control id does not match the recursion program"
  | .span => "segment span does not match the recursion depth"
  | .claim => "seal does not commit to the claim"
  | .binding => "seal binding mismatch"

/-- Why two receipts do not chain. -/
inductive ChainError where
  | states (leftEnd rightStart : Digest)
  | exit (code : ExitCode)
  | indices (first stop next : Nat)
  deriving DecidableEq

/-- The wording of an error. -/
def ChainError.message : ChainError → String
  | .states leftEnd rightStart => s!"left ends at {leftEnd}, right starts at {rightStart}"
  | .exit code => "left receipt ends with " ++ code.message
  | .indices first stop next => s!"left covers segments {first}..{stop}, right starts at {next}"

/-- Why receipts are not lifted, not joined or not accepted. -/
inductive RecursionError where
  | invalidReceipt (cause : ReceiptError)
  | configMismatch
  | chainMismatch (cause : ChainError)
  /-- The seal was made by the development backend and the verifier does not accept it. -/
  | developmentSeal
  | emptyInput

/-- The wording of an error. -/
def RecursionError.message : RecursionError → String
  | .invalidReceipt cause => "invalid receipt: " ++ cause.message
  | .configMismatch => "receipts were proven under different config digests"
  | .chainMismatch cause => "receipts do not chain: " ++ cause.message
  | .developmentSeal =>
    "dev-mode seal rejected; enable dev mode in the verifier context to accept it"
  | .emptyInput => "no receipts to join"

end ReplayVM
