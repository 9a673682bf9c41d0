import ReplayVM.Codec.Memory
import ReplayVM.Witness.Row

/-!
# Formats of witnesses

The binary forms of rows and of the words in them.
-/

namespace ReplayVM

open Format

/-- An instruction word with its path. -/
def FetchWitness.format : Format FetchWitness :=
  (uint32.pair (uint32.pair MerklePath.format)).iso
    (fun (addr, value, path) => ⟨addr, value, path⟩) (fun f => (f.addr, f.value, f.path))

/-- A data word with its path. -/
def DataWitness.format : Format DataWitness :=
  (uint32.pair (uint32.pair (uint32.pair MerklePath.format))).iso
    (fun (addr, old, new, path) => ⟨addr, old, new, path⟩)
    (fun d => (d.addr, d.old, d.new, d.path))

/-- A state, then what was asked of the bus. -/
def Row.format : Format Row :=
  (SystemState.format.pair ((option FetchWitness.format).pair ((option DataWitness.format).pair
    (option HostReply.format)))).iso
    (fun (state, fetch, data, host) => ⟨state, fetch, data, host⟩)
    (fun r => (r.state, r.fetch, r.data, r.host))

end ReplayVM
