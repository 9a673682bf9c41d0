/-!
# Pairing up

Several trees here are built by pairing up the items of a list round by round, until one is left. An
item without a partner passes to the next round as it is.

## Main definitions

* `Pairing.pairUp`, `Pairing.pairUpM`: one round.
* `Pairing.rounds`: the number of rounds that leave one item.

## Main results

* `Pairing.le_shiftLeft_rounds`: as many items fit a full tree of that height.
-/

namespace ReplayVM.Pairing

variable {α ε : Type}

/-- One round: neighbours are combined. -/
def pairUp (f : α → α → α) : List α → List α
  | a :: b :: as => f a b :: pairUp f as
  | as => as

/-- One round of a combination that may fail; the first failure from the left counts. -/
def pairUpM (f : α → α → Except ε α) : List α → Except ε (List α)
  | a :: b :: as => do
    let c ← f a b
    let cs ← pairUpM f as
    return c :: cs
  | as => .ok as

/-- The number of rounds after which one of `n` items is left. -/
def rounds (n : Nat) : Nat := if n ≤ 1 then 0 else (n - 1).log2 + 1

theorem le_shiftLeft_rounds (n : Nat) : n ≤ 1 <<< rounds n := by
  rw [Nat.one_shiftLeft]
  unfold rounds
  split
  · simpa
  · have := Nat.lt_log2_self (n := n - 1)
    omega

end ReplayVM.Pairing
