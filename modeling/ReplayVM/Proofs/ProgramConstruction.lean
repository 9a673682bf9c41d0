import ReplayVM.Codec.Program
import ReplayVM.Proofs.FormatLaws
import ReplayVM.Proofs.LoadedParts
import ReplayVM.Proofs.MemoryConstruction
import ReplayVM.Proofs.Steps
import ReplayVM.Proofs.Verification

/-!
# Where programs come from

A program is loaded from a file or read from its encoding. Loading checks that each part lies inside
the address space, reading checks the pages of the memory, so both lead to a well-formed memory. A
loaded program has the digests that belong to it; of one that was read, this has to be checked.

## Main results

* `Program.checkIntegrity_of_load`, `Program.wellFormed_of_load`: programs that were loaded.
* `Program.wellFormed_of_decode`: programs that were read.
-/

namespace ReplayVM

/-! ### Values that were read -/

namespace Format

variable {α β : Type} {f : Format α} {bytes rest : Bytes}

theorem read_of_bind {x : Reader α} {g : α → Reader β} {b : β}
    (h : (x >>= g).run bytes = .ok (b, rest)) :
    ∃ a rest', x.run bytes = .ok (a, rest') ∧ (g a).run rest' = .ok (b, rest) := by
  rw [StateT.run_bind] at h
  obtain ⟨⟨a, rest'⟩, ha, hb⟩ := bind_eq_ok_iff.mp h
  exact ⟨a, rest', ha, hb⟩

theorem read_of_iso {decode : α → β} {encode : β → α} {b : β}
    (h : (f.iso decode encode).read.run bytes = .ok (b, rest)) :
    ∃ a, f.read.run bytes = .ok (a, rest) ∧ decode a = b := by
  rw [iso, ← bind_pure_comp] at h
  obtain ⟨a, rest', ha, hb⟩ := read_of_bind h
  obtain ⟨rfl, rfl⟩ := Prod.mk.inj (Except.ok.inj hb)
  exact ⟨a, ha, rfl⟩

theorem read_of_pair {g : Format β} {a : α} {b : β}
    (h : (f.pair g).read.run bytes = .ok ((a, b), rest)) :
    ∃ rest', f.read.run bytes = .ok (a, rest') ∧ g.read.run rest' = .ok (b, rest) := by
  obtain ⟨a', rest', ha, h⟩ := read_of_bind h
  obtain ⟨b', rest'', hb, h⟩ := read_of_bind h
  obtain ⟨hab, rfl⟩ := Prod.mk.inj (Except.ok.inj h)
  obtain ⟨rfl, rfl⟩ := Prod.mk.inj hab
  exact ⟨rest', ha, hb⟩

theorem read_of_refine {decode : α → Except CodecError β} {encode : β → α} {b : β}
    (h : (f.refine decode encode).read.run bytes = .ok (b, rest)) :
    ∃ a, f.read.run bytes = .ok (a, rest) ∧ decode a = .ok b := by
  obtain ⟨a, rest', ha, h⟩ := read_of_bind h
  cases hd : decode a with
  | error e => simp [hd, throw, throwThe, MonadExceptOf.throw] at h
  | ok b' =>
    rw [hd] at h
    obtain ⟨rfl, rfl⟩ := Prod.mk.inj (Except.ok.inj h)
    exact ⟨a, ha, hd⟩

end Format

/-! ### Programs -/

namespace Program

variable {params : Params} {file : Bytes} {p : Program}

/-- The data of a placed part lie inside the address space. -/
theorem region_inside_of_placed {h : Elf.ProgramHeader} (hvalid : params.validate = .ok ())
    (hp : h.Placed params file) :
    h.vaddr.toNat + (h.data file).length ≤ 1 <<< params.memoryBits.toNat := by
  have hmax : params.maxMemory.toNat = 1 <<< params.memoryBits.toNat :=
    (Memory.wellFormed_empty hvalid).toFits.toNat_maxMemory ⟨rfl, rfl⟩
  rw [hp.length_data, ← hmax]
  exact hp.fileEnd_le

/-- The memory of some parts of a file. -/
def partsMemory (params : Params) (file : Bytes) (headers : List Elf.ProgramHeader) : Memory :=
  .ofRegions params (headers.map fun h => (h.vaddr, h.data file))

/-- The record of a file and its loaded parts. -/
def partsInfo (file : Bytes) (headers : List Elf.ProgramHeader) : ProgramInfo where
  fileHash := Hex.ofBytes (Blake3.hash file)
  parts := headers.map Elf.ProgramHeader.loaded
  footprint := (footprint headers).toUInt64

/-- A loaded program is made of the parts of its file that are loaded. -/
theorem load_eq_ok (h : load params file = .ok p) :
    params.validate = .ok () ∧ ∃ table,
      Elf.readProgramHeaders file (.ofBytes file) = .ok (some table) ∧
      (∀ h ∈ table.filter (·.isLoaded), h.Placed params file) ∧
      checkParts params (Elf.Header.ofBytes file).entry (table.filter (·.isLoaded)) = .ok () ∧
      p = make (partsMemory params file (table.filter (·.isLoaded)))
        (Elf.Header.ofBytes file).entry params (partsInfo file (table.filter (·.isLoaded))) := by
  simp only [load, bind_eq_ok_iff, mapError_eq_ok_iff, Prod.exists] at h
  obtain ⟨⟨⟩, hvalid, entry, parts, hparts, ⟨⟩, hcheck, hp⟩ := h
  obtain ⟨table, htable, rfl, rfl, hplaced⟩ := readParts_eq_ok hparts
  have hfst (headers : List Elf.ProgramHeader) :
      (headers.map fun h => (h, h.data file)).map Prod.fst = headers := by
    rw [List.map_map]
    exact List.map_id _
  rw [hfst] at hcheck hp
  rw [List.map_map] at hp
  exact ⟨hvalid, table, htable, hplaced, hcheck, (Except.ok.inj hp).symm⟩

/-- A loaded program is made over a memory of regions inside the address space. -/
theorem exists_of_load (h : load params file = .ok p) :
    params.validate = .ok () ∧ ∃ regions entry info,
      (∀ r ∈ regions, r.1.toNat + r.2.length ≤ 1 <<< params.memoryBits.toNat) ∧
      p = make (.ofRegions params regions) entry params info := by
  obtain ⟨hvalid, table, -, hplaced, -, rfl⟩ := load_eq_ok h
  refine ⟨hvalid, _, _, _, ?_, rfl⟩
  exact List.forall_mem_map.mpr fun h hh => region_inside_of_placed hvalid (hplaced h hh)

/-- The memory of a loaded program is well formed. -/
theorem wellFormed_of_load (h : load params file = .ok p) : p.memory.WellFormed := by
  obtain ⟨hvalid, regions, entry, info, hinside, rfl⟩ := exists_of_load h
  exact Memory.wellFormed_ofRegions hvalid hinside

/-- A loaded program passes. -/
theorem checkIntegrity_of_load (h : load params file = .ok p) : p.checkIntegrity = .ok () := by
  obtain ⟨hvalid, regions, entry, info, hinside, rfl⟩ := exists_of_load h
  have hlayout := Memory.hasLayout_ofRegions params regions
  exact checkIntegrity_make entry info hvalid ⟨hlayout.pageSize_eq, hlayout.memoryBits_eq⟩

/-- The memory of a program that was read is well formed. -/
theorem wellFormed_of_decode {bytes : Bytes} (h : Program.format.decode bytes = .ok p) :
    p.memory.WellFormed := by
  obtain ⟨⟨memory, fields⟩, hpair, rfl⟩ := Format.read_of_iso (Format.decode_eq_ok_iff_run.mp h)
  obtain ⟨rest', hmemory, -⟩ := Format.read_of_pair hpair
  obtain ⟨snapshot, -, hsnapshot⟩ := Format.read_of_refine hmemory
  exact Memory.wellFormed_ofSnapshot hsnapshot

end Program

end ReplayVM
