import ReplayVM.Digest.Basic
import ReplayVM.Pairing

/-!
# Trace roots

The digests of the rows of a witness are committed to as the leaves of a binary tree. The leaves are
padded with zero digests to the next power of two, so the root does not tell how many there are.

## Main definitions

* `TraceRoot.padded`: the leaves of a full tree.
* `traceRoot`: the root over some leaves.

## Main results

* `TraceRoot.length_padded`: the padded leaves fill the tree.
-/

namespace ReplayVM

namespace TraceRoot

open Pairing

/-- The leaves, with zero digests behind them up to a power of two. -/
def padded (leaves : List Digest) : List Digest :=
  leaves ++ List.replicate (1 <<< rounds leaves.length - leaves.length) .zero

/-- The digest at the top of a tree of the given height. -/
def climb : (height : Nat) → List Digest → Digest
  | 0, ds => ds.headD .zero
  | height + 1, ds => climb height (pairUp Digest.hashPair ds)

/-- The padded leaves fill the tree. -/
theorem length_padded (leaves : List Digest) :
    (padded leaves).length = 1 <<< rounds leaves.length := by
  have := le_shiftLeft_rounds leaves.length
  simp only [padded, List.length_append, List.length_replicate]
  omega

end TraceRoot

/-- The root over some leaves. -/
def traceRoot (leaves : List Digest) : Digest :=
  TraceRoot.climb (Pairing.rounds leaves.length) (TraceRoot.padded leaves)

end ReplayVM
