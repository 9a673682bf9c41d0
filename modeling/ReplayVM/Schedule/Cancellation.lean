/-!
# Cancellation

Work is cancelled by a token. A token may have children, which are cancelled with it; cancelling a
child leaves its parent as it is.

## Main definitions

* `CancellationToken`, `Cancellations`.
* `Cancellations.root`, `Cancellations.child`: new tokens.
* `Cancellations.cancel`, `Cancellations.isCancelled`.

## Main results

* `Cancellations.isCancelled_cancel`: a token is cancelled once it or one of its ancestors is.
-/

namespace ReplayVM

/-- A token, as a line of descent: its own number, then that of its parent, and so on. -/
structure CancellationToken where
  number : Nat
  ancestors : List Nat
  deriving DecidableEq

/-- The numbers of a token and its ancestors. -/
def CancellationToken.lineage (t : CancellationToken) : List Nat := t.number :: t.ancestors

/-- How many tokens there are, and which of them were cancelled. -/
structure Cancellations where
  issued : Nat := 0
  cancelled : List Nat := []

namespace Cancellations

/-- A new token without a parent. -/
def root (c : Cancellations) : CancellationToken × Cancellations :=
  (⟨c.issued, []⟩, { c with issued := c.issued + 1 })

/-- A new token below another. -/
def child (c : Cancellations) (parent : CancellationToken) : CancellationToken × Cancellations :=
  (⟨c.issued, parent.lineage⟩, { c with issued := c.issued + 1 })

/-- Cancels a token. -/
def cancel (c : Cancellations) (t : CancellationToken) : Cancellations :=
  { c with cancelled := t.number :: c.cancelled }

/-- Whether a token or one of its ancestors was cancelled. -/
def isCancelled (c : Cancellations) (t : CancellationToken) : Bool :=
  t.lineage.any (· ∈ c.cancelled)

/-- A token is cancelled once it or one of its ancestors is. -/
theorem isCancelled_cancel (c : Cancellations) (s t : CancellationToken) :
    (c.cancel s).isCancelled t = true ↔ s.number ∈ t.lineage ∨ c.isCancelled t = true := by
  simp only [isCancelled, cancel, List.any_eq_true, decide_eq_true_eq, List.mem_cons]
  constructor
  · rintro ⟨n, hn, rfl | hc⟩
    · exact .inl hn
    · exact .inr ⟨n, hn, hc⟩
  · rintro (hs | ⟨n, hn, hc⟩)
    · exact ⟨_, hs, .inl rfl⟩
    · exact ⟨n, hn, .inr hc⟩

end Cancellations

end ReplayVM
