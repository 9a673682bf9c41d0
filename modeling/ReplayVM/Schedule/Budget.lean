import ReplayVM.Receipt.Prove

/-!
# Memory budgets

The jobs of a session share a budget of memory. A job reserves what it needs before it starts and
gives it back when it is done. What the whole budget cannot satisfy is refused at once; a job that
is not cancelled waits for what others will give back.

## Main definitions

* `MemoryBudget`, `MemoryBudget.full`.
* `Admission`, `MemoryBudget.acquire`, `MemoryBudget.release`.
-/

namespace ReplayVM

/-- A budget in bytes. -/
structure MemoryBudget where
  total : Nat
  /-- What is not reserved. -/
  available : Nat
  deriving DecidableEq

/-- What happens to a job that asks for memory. -/
inductive Admission where
  | granted
  | refused (cause : ProverError)
  | waiting

namespace MemoryBudget

/-- A budget of which nothing is reserved. -/
def full (total : Nat) : MemoryBudget := ⟨total, total⟩

/-- Asks for memory, for a job that may be cancelled: what happens to the job, and what is left of
the budget. -/
def acquire (b : MemoryBudget) (bytes : Nat) (cancelled : Bool) : Admission × MemoryBudget :=
  if b.total < bytes then (.refused (.resourceExhausted bytes b.total), b)
  else if cancelled then (.refused .cancelled, b)
  else if bytes ≤ b.available then (.granted, { b with available := b.available - bytes })
  else (.waiting, b)

/-- Gives memory back. -/
def release (b : MemoryBudget) (bytes : Nat) : MemoryBudget :=
  { b with available := b.available + bytes }

end MemoryBudget

end ReplayVM
