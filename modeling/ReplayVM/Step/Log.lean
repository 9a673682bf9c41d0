import ReplayVM.Step.Basic

/-!
# Logged buses

A log of what a step asks of its bus shows the discipline that recording, replay and paging rely
on: one fetch, at most one data access, at most one call. Logging changes no answer.

## Main definitions

* `Access`: one question to a bus, with the word it was about.
* `Bus.logged`: a bus that writes down every question in front of the earlier ones.
-/

namespace ReplayVM

/-- One use of a bus. -/
inductive Access where
  | fetch (pc word : UInt32)
  | load (addr word : UInt32)
  | store (addr word : UInt32)
  | call (request : HostCall)
  deriving DecidableEq

/-- The bus that answers like the given one and keeps a log, the latest use first. -/
def Bus.logged {σ : Type} (bus : Bus σ) : Bus (σ × List Access) where
  fetch := fun (s, log) pc =>
    let (word, s) := bus.fetch s pc
    (word, s, .fetch pc word :: log)
  load := fun (s, log) addr =>
    let (word, s) := bus.load s addr
    (word, s, .load addr word :: log)
  store := fun (s, log) addr value => (bus.store s addr value, .store addr value :: log)
  call := fun (s, log) request =>
    let (reply, s) := bus.call s request
    (reply, s, .call request :: log)

end ReplayVM
