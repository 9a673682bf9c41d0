import ReplayVM.Bytes
import ReplayVM.Step.Bus

/-!
# Input

The guest reads its input four bytes at a time and can ask how much is left. The input stays as it
is, and a position in it moves on with what is read.

## Main definitions

* `Input`, `Input.unread`: the input and the part behind the position.
* `Input.InRange`: the positions that an input has.
* `Input.answer`: the answer to a host call, and the input after it.

## Main results

* `Input.unread_read`: reading leaves the bytes behind the first four.
* `Input.InRange.answer`: no call moves the position past the end.
-/

namespace ReplayVM

/-- An input that is read from the front. -/
structure Input where
  bytes : Bytes
  /-- The number of bytes that were read. -/
  pos : Nat := 0
  deriving DecidableEq

namespace Input

/-- A position is at a byte or at the end. To slice an input behind a position past its end stops
the program. -/
def InRange (i : Input) : Prop := i.pos ≤ i.bytes.length

/-- The bytes behind the position. -/
def unread (i : Input) : Bytes := i.bytes.drop i.pos

/-- Reads up to four bytes, as a word whose missing bytes are zero, and their number. -/
def read (i : Input) : HostReply × Input :=
  let chunk := i.unread.take 4
  (⟨Bytes.toWord chunk, chunk.length.toUInt32⟩, { i with pos := i.pos + chunk.length })

/-- The answer to a host call. -/
def answer (i : Input) : HostCall → HostReply × Input
  | .read => i.read
  | .inputLen => (⟨i.unread.length.toUInt32, 0⟩, i)

/-! ### Positions -/

variable {i : Input}

/-- Reading leaves the bytes behind the first four. -/
theorem unread_read (i : Input) : i.read.2.unread = i.unread.drop 4 := by
  change i.bytes.drop (i.pos + (i.unread.take 4).length) = (i.bytes.drop i.pos).drop 4
  rw [← List.drop_drop, List.length_take, ← unread]
  by_cases h : 4 ≤ i.unread.length
  · rw [Nat.min_eq_left h]
  · rw [Nat.min_eq_right (Nat.le_of_not_le h), List.drop_length,
      List.drop_eq_nil_of_le (Nat.le_of_not_le h)]

/-- A call leaves the bytes of the input, and moves the position by no more than is left. -/
theorem answer_move (i : Input) (request : HostCall) : (i.answer request).2.bytes = i.bytes ∧
    i.pos ≤ (i.answer request).2.pos ∧ (i.answer request).2.pos ≤ i.pos + i.unread.length := by
  cases request with
  | read =>
    refine ⟨rfl, Nat.le_add_right _ _, Nat.add_le_add_left ?_ _⟩
    rw [List.length_take]
    exact Nat.min_le_right _ _
  | inputLen => exact ⟨rfl, Nat.le_refl _, Nat.le_add_right _ _⟩

/-- No call moves the position past the end. -/
theorem InRange.answer (h : i.InRange) (request : HostCall) : (i.answer request).2.InRange := by
  obtain ⟨hbytes, -, hpos⟩ := i.answer_move request
  rw [unread, List.length_drop] at hpos
  rw [InRange, hbytes]
  have : i.pos ≤ i.bytes.length := h
  omega

end Input

end ReplayVM
