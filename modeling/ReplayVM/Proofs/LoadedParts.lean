import ReplayVM.Program.Load
import ReplayVM.Proofs.Verification

/-!
# The parts that are loaded

A part is loaded if its program header says so and if it takes memory. Of the others, some are
refused and the rest is passed over. A loaded part passed two checks: one of its place in memory,
and one of the place of its data in the file.

## Main definitions

* `Elf.ProgramHeader.isLoaded`, `Elf.ProgramHeader.data`: the parts that are loaded, and their data.
* `Elf.ProgramHeader.Placed`: what is checked of them.

## Main results

* `Elf.loadParts_eq_ok`, `Program.readParts_eq_ok`: the parts of a file are those of its table that
  are loaded, in order and placed.
-/

namespace ReplayVM

namespace Elf

variable {params : Params} {file : Bytes} {h : ProgramHeader}

namespace ProgramHeader

/-- Whether a part is loaded. -/
def isLoaded (h : ProgramHeader) : Bool := h.kind = loadKind && h.memSize ≠ 0

/-- The bytes of a file for a part. -/
def data (h : ProgramHeader) (file : Bytes) : Bytes :=
  (file.drop h.offset.toNat).take h.fileSize.toNat

/-- A part that lies in the address space, with data that lie in the file. -/
structure Placed (params : Params) (file : Bytes) (h : ProgramHeader) : Prop where
  fileSize_le : h.fileSize.toNat ≤ h.memSize.toNat
  minMemory_le : minMemory.toNat ≤ h.vaddr.toNat
  memEnd_le : h.memEnd ≤ params.maxMemory.toNat
  data_inside : h.offset.toNat + h.fileSize.toNat ≤ file.length

theorem Placed.length_data (hp : h.Placed params file) :
    (h.data file).length = h.fileSize.toNat := by
  have hinside := hp.data_inside
  rw [data, List.length_take, List.length_drop]
  omega

theorem Placed.fileEnd_le (hp : h.Placed params file) : h.fileEnd ≤ params.maxMemory.toNat :=
  Nat.le_trans (Nat.add_le_add_left hp.fileSize_le _) hp.memEnd_le

end ProgramHeader

theorem checkPlace_eq_ok (hplace : checkPlace params h = .ok ()) :
    h.fileSize.toNat ≤ h.memSize.toNat ∧ minMemory.toNat ≤ h.vaddr.toNat ∧
      h.memEnd ≤ params.maxMemory.toNat := by
  unfold checkPlace at hplace
  split_ifs at hplace with hsize hguard hend
  exact ⟨UInt32.le_iff_toNat_le.mp (UInt32.not_lt.mp hsize),
    UInt32.le_iff_toNat_le.mp (UInt32.not_lt.mp hguard), Nat.le_of_not_lt hend⟩

theorem partData_eq_ok {data : Bytes} (hdata : partData file h = .ok data) :
    data = h.data file ∧ h.offset.toNat + h.fileSize.toNat ≤ file.length := by
  unfold partData readRange at hdata
  dsimp only at hdata
  split at hdata
  · rename_i found hrange
    obtain rfl := Except.ok.inj hdata
    split at hrange
    · rename_i hinside
      rw [← Except.ok.inj hrange, Nat.add_sub_cancel_left]
      exact ⟨rfl, hinside.2⟩
    · simp at hrange
  · simp at hdata

/-- A part is loaded with its data, and then it is placed. -/
theorem loadPart_eq_ok {data : Option Bytes} (hload : loadPart params file h = .ok data) :
    data = (if h.isLoaded then some (h.data file) else none) ∧
      (h.isLoaded = true → h.Placed params file) := by
  unfold loadPart at hload
  split_ifs at hload with hdynamic hinterpreter hlocal hskip
  · have hnot : h.isLoaded = false := by
      rw [ProgramHeader.isLoaded]
      rcases hskip with hkind | hempty
      · simp [hkind]
      · simp [hempty]
    rw [hnot, ← Except.ok.inj hload]
    simp
  · obtain ⟨hkind, hsize⟩ := not_or.mp hskip
    have hloaded : h.isLoaded = true := by simp [ProgramHeader.isLoaded, not_not.mp hkind, hsize]
    obtain ⟨⟨⟩, hplace, found, hdata, hfound⟩ := by simpa only [bind_eq_ok_iff] using hload
    obtain ⟨rfl, hinside⟩ := partData_eq_ok hdata
    obtain ⟨hfile, hguard, hend⟩ := checkPlace_eq_ok hplace
    rw [if_pos hloaded]
    exact ⟨(Except.ok.inj hfound).symm, fun _ => ⟨hfile, hguard, hend, hinside⟩⟩

/-- The loaded parts are those of the table, in order, and they are placed. -/
theorem loadParts_eq_ok {headers : List ProgramHeader} {parts : List (ProgramHeader × Bytes)}
    (hload : loadParts params file headers = .ok parts) :
    parts = (headers.filter (·.isLoaded)).map (fun h => (h, h.data file)) ∧
      ∀ h ∈ headers.filter (·.isLoaded), h.Placed params file := by
  induction headers generalizing parts with
  | nil =>
    rw [← Except.ok.inj hload]
    simp
  | cons h headers ih =>
    simp only [loadParts, bind_eq_ok_iff] at hload
    obtain ⟨data, hdata, rest, hrest, hparts⟩ := hload
    obtain ⟨rfl, hplaced⟩ := loadPart_eq_ok hdata
    obtain ⟨rfl, hrestPlaced⟩ := ih hrest
    cases hloaded : h.isLoaded with
    | false =>
      rw [hloaded] at hparts
      rw [List.filter_cons_of_neg (by simp [hloaded]), ← Except.ok.inj hparts]
      exact ⟨rfl, hrestPlaced⟩
    | true =>
      rw [hloaded] at hparts
      rw [List.filter_cons_of_pos hloaded, ← Except.ok.inj hparts]
      exact ⟨rfl, List.forall_mem_cons.mpr ⟨hplaced hloaded, hrestPlaced⟩⟩

end Elf

/-- What is read of a file are its entry point and the loaded parts of its table. -/
theorem Program.readParts_eq_ok {params : Params} {file : Bytes} {entry : UInt32}
    {parts : List (Elf.ProgramHeader × Bytes)} (h : readParts params file = .ok (entry, parts)) :
    ∃ table, Elf.readProgramHeaders file (.ofBytes file) = .ok (some table) ∧
      entry = (Elf.Header.ofBytes file).entry ∧
      parts = (table.filter (·.isLoaded)).map (fun h => (h, h.data file)) ∧
      ∀ h ∈ table.filter (·.isLoaded), h.Placed params file := by
  simp only [readParts, bind_eq_ok_iff, mapError_eq_ok_iff] at h
  obtain ⟨-, -, -, -, headers, htable, -, -, h⟩ := h
  cases headers with
  | none => simp [throw, throwThe, MonadExceptOf.throw] at h
  | some table =>
    obtain ⟨parts', hload, hparts⟩ := bind_eq_ok_iff.mp h
    obtain ⟨rfl, rfl⟩ := Prod.mk.inj (Except.ok.inj hparts)
    exact ⟨table, htable, rfl, Elf.loadParts_eq_ok hload⟩

end ReplayVM
