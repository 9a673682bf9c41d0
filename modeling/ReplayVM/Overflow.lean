import ReplayVM.Bytes

/-!
# Numbers that do not fit

Sizes, counts and depths are computed as words. A result that does not fit its word is not taken
modulo anything: it stops the whole program, which then gives neither a value nor an error of its
own. What can be stopped this way says so in its type.

## Main definitions

* `word?`, `long?`: a number as a word, if it fits.
* `Stop`: why nothing is computed.
* `Stop.fit`: a number that stops the program if it does not fit.
-/

namespace ReplayVM

/-- A number as a word of 32 bits, if it fits. -/
def word? (n : Nat) : Option UInt32 := if n < UInt32.size then some n.toUInt32 else none

/-- A number as a word of 64 bits, if it fits. -/
def long? (n : Nat) : Option UInt64 := if n < UInt64.size then some n.toUInt64 else none

theorem word?_eq_some_iff {n : Nat} {w : UInt32} : word? n = some w ↔ w.toNat = n := by
  unfold word?
  split
  · rename_i h
    rw [Option.some_inj, ← UInt32.toNat_inj, UInt32.toNat_ofNat_of_lt' h, eq_comm]
  · rename_i h
    refine iff_of_false nofun ?_
    rintro rfl
    exact h w.toNat_lt_size

theorem long?_eq_some_iff {n : Nat} {w : UInt64} : long? n = some w ↔ w.toNat = n := by
  unfold long?
  split
  · rename_i h
    rw [Option.some_inj, ← UInt64.toNat_inj, UInt64.toNat_ofNat_of_lt' h, eq_comm]
  · rename_i h
    refine iff_of_false nofun ?_
    rintro rfl
    exact h w.toNat_lt_size

theorem exists_word?_iff {n : Nat} : (∃ w, word? n = some w) ↔ n < UInt32.size := by
  unfold word?
  split <;> simp_all

theorem exists_long?_iff {n : Nat} : (∃ w, long? n = some w) ↔ n < UInt64.size := by
  unfold long?
  split <;> simp_all

/-- Why nothing is computed. -/
inductive Stop (ε : Type) where
  /-- There is an error, which is reported. -/
  | reported (cause : ε)
  /-- A number does not fit its word, and the program stops. -/
  | overflow
  deriving DecidableEq

namespace Stop

variable {ε δ α : Type}

/-- Changes what is reported. -/
def map (f : ε → δ) : Stop ε → Stop δ
  | .reported cause => .reported (f cause)
  | .overflow => .overflow

/-- A number that stops the program if it does not fit. -/
def fit : Option α → Except (Stop ε) α
  | some a => .ok a
  | none => .error .overflow

theorem fit_eq_ok_iff {n : Option α} {a : α} :
    (fit n : Except (Stop ε) α) = .ok a ↔ n = some a := by
  cases n <;> simp [fit]

end Stop

end ReplayVM
