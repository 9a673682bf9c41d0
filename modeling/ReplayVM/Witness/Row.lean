import ReplayVM.Machine
import ReplayVM.Merkle.Path
import ReplayVM.Step.Bus

/-!
# Witness rows

A row of a witness is a state of the machine together with what the next instruction asked of the
bus: the word it was fetched as, the word it loaded or replaced, and the answer of the host. Words
come with the path that shows them to be in the memory of the state.

## Main definitions

* `FetchWitness`, `DataWitness`, `Row`.
* `Row.preimage`, `Row.digest`: the commitment to a row.
* `Row.sizeEstimate`: the space that a row takes, for estimates.
-/

namespace ReplayVM

/-- An instruction word with its path. -/
structure FetchWitness where
  addr : UInt32
  value : UInt32
  path : MerklePath
  deriving DecidableEq

/-- A data word with its path, before and after the instruction. A load leaves it as it is. -/
structure DataWitness where
  addr : UInt32
  old : UInt32
  new : UInt32
  path : MerklePath
  deriving DecidableEq

/-- A state, and what the next instruction asked of the bus. -/
structure Row where
  state : SystemState
  fetch : Option FetchWitness := none
  data : Option DataWitness := none
  host : Option HostReply := none
  deriving DecidableEq

/-- The number of siblings and the siblings. -/
def MerklePath.fields (p : MerklePath) : List Field :=
  .word p.siblings.length.toUInt32 :: p.siblings.map .digest

/-- The address and the word, then the path. -/
def FetchWitness.fields (f : FetchWitness) : List Field :=
  .word f.addr :: .word f.value :: f.path.fields

/-- The address and the two words, then the path. -/
def DataWitness.fields (d : DataWitness) : List Field :=
  .word d.addr :: .word d.old :: .word d.new :: d.path.fields

/-- The two values of an answer. -/
def HostReply.fields (r : HostReply) : List Field := [.word r.a0, .word r.a1]

/-- The fields of something that may be missing, behind a word that says whether it is there. -/
def optionalFields {α : Type} (fields : α → List Field) : Option α → List Field
  | some a => .word 1 :: fields a
  | none => [.word 0]

namespace Row

/-- What is hashed for a row. -/
def preimage (r : Row) : Preimage where
  tag := "zkc.row.v1"
  fields := r.state.fields ++ optionalFields FetchWitness.fields r.fetch ++
    optionalFields DataWitness.fields r.data ++ optionalFields HostReply.fields r.host

/-- The commitment to a row. -/
def digest (r : Row) : Digest := r.preimage.digest

/-- The bytes that the state of a row takes. -/
def stateSize : Nat := 4 + 4 * 32 + 32 + 4 + 32

/-- The bytes that a row takes at most when memory trees have the given depth: the state, two words
with their paths, and an answer of the host. -/
def sizeEstimate (depth : Nat) : Nat := stateSize + 2 * (24 + 32 * depth + 16) + 16

end Row

end ReplayVM
