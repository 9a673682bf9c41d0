import ReplayVM.Step.Bus
import Std.Data.TreeMap

/-!
# Word maps as buses

The simplest thing behind a bus: a map from addresses to words, zero where nothing was written, and
a list of answers that the host gives in order, then zeros.
-/

namespace ReplayVM

/-- Words by address, and the answers of the host still to come. -/
structure WordMap where
  words : Std.TreeMap UInt32 UInt32 := ∅
  replies : List HostReply := []

namespace WordMap

/-- The word at an address. -/
def word (m : WordMap) (addr : UInt32) : UInt32 := m.words.getD addr 0

/-- Overwrites the word at an address. -/
def set (m : WordMap) (addr value : UInt32) : WordMap :=
  { m with words := m.words.insert addr value }

/-- The next answer of the host. -/
def reply (m : WordMap) : HostReply × WordMap :=
  match m.replies with
  | [] => ({}, m)
  | r :: replies => (r, { m with replies := replies })

/-- The bus over a word map. -/
def bus : Bus WordMap where
  fetch := fun m pc => (m.word pc, m)
  load := fun m addr => (m.word addr, m)
  store := set
  call := fun m _ => m.reply

end WordMap

end ReplayVM
