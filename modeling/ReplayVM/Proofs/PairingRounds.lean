import Mathlib.Data.Nat.Log
import ReplayVM.Pairing

/-!
# Rounds of pairing up

A round of pairing up leaves half of the items, rounded up. So the rounds that leave one item are as
many as the binary logarithm of their number, rounded up, and none of them is idle.

## Main results

* `Pairing.length_pairUp`, `Pairing.pairUp_append`: what one round leaves.
* `Pairing.rounds_eq_clog`: how many rounds there are.
-/

namespace ReplayVM.Pairing

variable {α : Type}

theorem length_pairUp (f : α → α → α) :
    ∀ as : List α, (pairUp f as).length = (as.length + 1) / 2
  | [] => by simp [pairUp]
  | [_] => by simp [pairUp]
  | _ :: _ :: as => by
    simp only [pairUp, List.length_cons, length_pairUp f as]
    omega

/-- Items without an odd one are paired up on their own. -/
theorem pairUp_append (f : α → α → α) (bs : List α) : ∀ as : List α, as.length % 2 = 0 →
    pairUp f (as ++ bs) = pairUp f as ++ pairUp f bs
  | [], _ => rfl
  | [_], heven => nomatch heven
  | a :: b :: as, heven => by
    simp only [List.length_cons] at heven
    simp only [List.cons_append, pairUp, pairUp_append f bs as (by omega)]

theorem shiftLeft_pos (n : Nat) : 0 < 1 <<< n := by
  rw [Nat.one_shiftLeft]
  exact Nat.two_pow_pos n

/-- No round is idle. -/
theorem shiftLeft_rounds_lt {n : Nat} (hpos : 0 < n) : 1 <<< rounds n < 2 * n := by
  rw [Nat.one_shiftLeft]
  unfold rounds
  split
  · omega
  · have := Nat.log2_self_le (n := n - 1) (by omega)
    rw [Nat.pow_succ]
    omega

theorem rounds_eq_clog (n : Nat) : rounds n = Nat.clog 2 n := by
  rcases Nat.eq_zero_or_pos n with rfl | hpos
  · rfl
  · have hle := le_shiftLeft_rounds n
    have hlt := shiftLeft_rounds_lt hpos
    rw [Nat.one_shiftLeft] at hle hlt
    refine Nat.le_antisymm ?_ (Nat.clog_le_of_le_pow hle)
    cases hrounds : rounds n with
    | zero => exact Nat.zero_le _
    | succ k =>
      rw [hrounds, Nat.pow_succ] at hlt
      exact (Nat.lt_clog_iff_pow_lt Nat.one_lt_two).mpr (by omega)

end ReplayVM.Pairing
