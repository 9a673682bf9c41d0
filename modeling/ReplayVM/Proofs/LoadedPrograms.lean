import ReplayVM.Elf.Builder
import ReplayVM.Proofs.CheckedLoading

/-!
# What a loaded program holds

A file that is accepted determines the program. Its memory is the array of zeros over the address
space to which the data of the loaded parts were written in the order of the table, so where parts
overlap the last one is seen, and behind the data of a part there is what the parts before it left,
or zeros.

## Main definitions

* `Elf.fileByteAt`: the byte that some parts of a file give an address.
* `Program.LoadedFrom`: a sound program with the contents of some parts of a file.

## Main results

* `Memory.byteAt_partsMemory`: the bytes of the memory of some parts.
* `Program.loadedFrom_of_load`: the loader stays in range, and what it accepts is such a program.
-/

namespace ReplayVM

/-! ### Writes in a row -/

/-- A byte after some writes is that of the last one that covers it. -/
theorem Page.getD_foldl_write (page : Page) (regions : List (UInt32 × Bytes)) {i : Nat}
    (hi : i < page.size) :
    (regions.foldl (fun array r => array.write r.1.toNat r.2) page).getD i 0 =
      match (regions.filter fun r => r.1.toNat ≤ i && i < r.1.toNat + r.2.length).getLast? with
      | some r => r.2.getD (i - r.1.toNat) 0
      | none => page.getD i 0 := by
  have hsize (regions : List (UInt32 × Bytes)) :
      (regions.foldl (fun array r => array.write r.1.toNat r.2) page).size = page.size := by
    induction regions using List.reverseRecOn with
    | nil => rfl
    | append_singleton regions r ih => rw [List.foldl_concat, Page.size_write, ih]
  induction regions using List.reverseRecOn with
  | nil => rfl
  | append_singleton regions r ih =>
    rw [List.foldl_concat, Page.getD_write, hsize, List.filter_append]
    by_cases hcovers : r.1.toNat ≤ i ∧ i < r.1.toNat + r.2.length
    · rw [if_pos ⟨hcovers.1, hcovers.2, hi⟩, List.filter_cons_of_pos (by simpa using hcovers),
        List.filter_nil, List.getLast?_concat]
    · rw [if_neg (by tauto), List.filter_cons_of_neg (by simpa using hcovers), List.filter_nil,
        List.append_nil, ih]

namespace Elf

/-- Whether an address lies in the file part of a part. -/
def ProgramHeader.covers (h : ProgramHeader) (addr : Nat) : Bool :=
  h.vaddr.toNat ≤ addr && addr < h.fileEnd

/-- The byte that some parts of a file give an address: that of the last part whose file part
covers it, and zero where none does. -/
def fileByteAt (file : Bytes) (headers : List ProgramHeader) (addr : Nat) : UInt8 :=
  match (headers.filter (·.covers addr)).getLast? with
  | some h => file.getD (h.offset.toNat + (addr - h.vaddr.toNat)) 0
  | none => 0

variable {params : Params} {file : Bytes} {headers : List ProgramHeader}

theorem ProgramHeader.covers_iff {h : ProgramHeader} {addr : Nat} :
    h.covers addr = true ↔ h.vaddr.toNat ≤ addr ∧ addr < h.fileEnd := by
  simp [covers]

/-- The bytes of a part are those of the file behind its offset. -/
theorem ProgramHeader.getD_data {h : ProgramHeader} {i : Nat} (hi : i < h.fileSize.toNat) :
    (h.data file).getD i 0 = file.getD (h.offset.toNat + i) 0 := by
  rw [data, List.getD_eq_getElem?_getD, List.getElem?_take_of_lt hi, List.getElem?_drop,
    List.getD_eq_getElem?_getD]

/-- The data of placed parts, written in order over zeros. -/
theorem getD_foldl_write_data (hplaced : ∀ h ∈ headers, h.Placed params file) {size addr : Nat}
    (haddr : addr < size) :
    ((headers.map fun h => (h.vaddr, h.data file)).foldl
      (fun array r => array.write r.1.toNat r.2) (Page.zeros size)).getD addr 0 =
        fileByteAt file headers addr := by
  have hcovers : ∀ h ∈ headers, (decide (h.vaddr.toNat ≤ addr) &&
      decide (addr < h.vaddr.toNat + (h.data file).length)) = h.covers addr := by
    intro h hh
    rw [(hplaced h hh).length_data]
    rfl
  rw [Page.getD_foldl_write _ _ (by rwa [Page.size_zeros]), List.filter_map, List.getLast?_map,
    fileByteAt, ← List.filter_congr hcovers]
  cases hlast : (headers.filter fun h => decide (h.vaddr.toNat ≤ addr) &&
      decide (addr < h.vaddr.toNat + (h.data file).length)).getLast? with
  | none =>
    simp only [Function.comp_def, hlast, Option.map_none, Page.getD_zeros]
  | some h =>
    obtain ⟨hmem, hcovered⟩ := List.mem_filter.mp (List.mem_of_getLast? hlast)
    rw [hcovers h hmem, ProgramHeader.covers_iff, ProgramHeader.fileEnd] at hcovered
    simp only [Function.comp_def, hlast, Option.map_some]
    exact ProgramHeader.getD_data (by omega)

/-- Placed parts give bytes to addresses of the address space only. -/
theorem fileByteAt_of_le (hplaced : ∀ h ∈ headers, h.Placed params file) {addr : Nat}
    (hbehind : params.maxMemory.toNat ≤ addr) : fileByteAt file headers addr = 0 := by
  have hnone : headers.filter (·.covers addr) = [] := by
    refine List.filter_eq_nil_iff.mpr fun h hh hcovers => ?_
    have hend := (hplaced h hh).fileEnd_le
    have := (ProgramHeader.covers_iff.mp hcovers).2
    omega
  rw [fileByteAt, hnone, List.getLast?_nil]

/-- An entry point is the address of an instruction in the file part of executable code. -/
theorem isEntry_eq_true_iff {entry : UInt32} : isEntry headers entry = true ↔
    entry.toNat % 4 = 0 ∧ ∃ h ∈ headers, h.isExecutable = true ∧
      h.vaddr.toNat ≤ entry.toNat ∧ entry.toNat + 4 ≤ h.fileEnd := by
  have hmod : entry % 4 = 0 ↔ entry.toNat % 4 = 0 := by
    rw [← UInt32.toNat_inj, UInt32.toNat_mod]
    rfl
  simp only [isEntry, Bool.and_eq_true, decide_eq_true_eq, List.any_eq_true, hmod,
    UInt32.le_iff_toNat_le, and_assoc]

end Elf

namespace Memory

variable {params : Params} {file : Bytes} {headers : List Elf.ProgramHeader}

/-- Pages behind the address space were never written. -/
theorem Fits.byteAt_of_le {m : Memory} (h : m.Fits) {addr : UInt32}
    (hbehind : 1 <<< m.memoryBits.toNat ≤ addr.toNat) : m.byteAt addr = 0 := by
  rw [byteAt, pageOf]
  cases hpage : m.pages[addr / m.pageSize]? with
  | none => exact Page.getD_zeros _ _
  | some page =>
    obtain ⟨-, hpos⟩ := h.pageSize_words
    have hinside := h.page_inside _ _ hpage
    rw [UInt32.toNat_div] at hinside
    have hlt := Nat.lt_mul_div_succ addr.toNat hpos
    rw [Nat.mul_comm] at hlt
    omega

/-- The memory of placed parts holds their bytes, at every address. -/
theorem byteAt_partsMemory (hvalid : params.validate = .ok ())
    (hplaced : ∀ h ∈ headers, h.Placed params file) (addr : UInt32) :
    (Program.partsMemory params file headers).byteAt addr =
      Elf.fileByteAt file headers addr.toNat := by
  have hinside : ∀ r ∈ headers.map fun h => (h.vaddr, h.data file),
      r.1.toNat + r.2.length ≤ 1 <<< params.memoryBits.toNat :=
    List.forall_mem_map.mpr fun h hh => Program.region_inside_of_placed hvalid (hplaced h hh)
  have hbits : (Program.partsMemory params file headers).memoryBits = params.memoryBits :=
    (hasLayout_ofRegions _ _).memoryBits_eq
  by_cases haddr : addr.toNat < 1 <<< params.memoryBits.toNat
  · have hrep : (Program.partsMemory params file headers).Represents _ :=
      Represents.ofRegions hvalid hinside
    rw [hrep.byteAt_eq addr (by rwa [hbits]), Elf.getD_foldl_write_data hplaced haddr]
  · have hfits : (Program.partsMemory params file headers).Fits :=
      (wellFormed_ofRegions hvalid hinside).toFits
    have hmax : params.maxMemory.toNat = 1 <<< params.memoryBits.toNat :=
      (wellFormed_empty hvalid).toFits.toNat_maxMemory ⟨rfl, rfl⟩
    rw [hfits.byteAt_of_le (by rw [hbits]; omega), Elf.fileByteAt_of_le hplaced (by omega)]

end Memory

/-! ### Programs -/

namespace Program

variable {params : Params} {file : Bytes} {p : Program}

/-- A sound program with the contents of some parts of a file. -/
structure LoadedFrom (params : Params) (file : Bytes) (headers : List Elf.ProgramHeader)
    (p : Program) : Prop where
  params_eq : p.params = params
  checkIntegrity_eq : p.checkIntegrity = .ok ()
  /-- The tree is that of the words of the pages. -/
  wellFormed : p.memory.WellFormed
  entry_eq : p.entry = (Elf.Header.ofBytes file).entry
  entry_aligned : p.entry.toNat % 4 = 0
  entry_covered : ∃ h ∈ headers, h.isExecutable = true ∧ h.vaddr.toNat ≤ p.entry.toNat ∧
    p.entry.toNat + 4 ≤ h.fileEnd
  placed : ∀ h ∈ headers, h.Placed params file
  byteAt_eq : ∀ addr, p.memory.byteAt addr = Elf.fileByteAt file headers addr.toNat
  parts_eq : p.info.parts = headers.map Elf.ProgramHeader.loaded
  footprint_eq : p.info.footprint.toNat = (headers.map fun h => h.memSize.toNat).sum
  footprint_lt : p.info.footprint.toNat < params.maxMemory.toNat

/-- The footprint of parts is the sum of their sizes in memory. -/
theorem footprint_eq_sum (headers : List Elf.ProgramHeader) :
    footprint headers = (headers.map fun h => h.memSize.toNat).sum := by
  rw [footprint, List.sum_eq_foldl, List.foldl_map]

theorem checkParts_eq_ok {entry : UInt32} {headers : List Elf.ProgramHeader}
    (h : checkParts params entry headers = .ok ()) :
    footprint headers < params.maxMemory.toNat ∧ Elf.isEntry headers entry = true := by
  unfold checkParts at h
  split_ifs at h with hempty hsize hentry
  exact ⟨Nat.lt_of_not_le hsize, by simpa using hentry⟩

/-- **Loading is safe and gives sound programs.** On every file no operation of the loader is out of
range. What it accepts is a program that passes its checks; its entry point is the address of an
instruction in the file part of executable code; each loaded part is placed, and the memory holds at
every address the byte of the last part that covers it, or zero; and the record of the program lists
these parts and their size. -/
theorem loadedFrom_of_load (params : Params) (file : Bytes) :
    (load? params file).run = some (load params file) ∧
      ∀ p, load params file = .ok p → ∃ table,
        Elf.readProgramHeaders file (.ofBytes file) = .ok (some table) ∧
          p.LoadedFrom params file (table.filter (·.isLoaded)) := by
  refine ⟨congrArg ExceptT.run (load?_eq params file), fun p hp => ?_⟩
  have hintegrity := checkIntegrity_of_load hp
  have hwell := wellFormed_of_load hp
  obtain ⟨hvalid, table, htable, hplaced, hcheck, rfl⟩ := load_eq_ok hp
  obtain ⟨hsize, hentry⟩ := checkParts_eq_ok hcheck
  obtain ⟨haligned, hcovered⟩ := Elf.isEntry_eq_true_iff.mp hentry
  have hfootprint : (footprint (table.filter (·.isLoaded))).toUInt64.toNat =
      footprint (table.filter (·.isLoaded)) := by
    have hmax := params.maxMemory.toNat_lt
    rw [UInt64.toNat_ofNat']
    omega
  exact ⟨table, htable, {
    params_eq := rfl
    checkIntegrity_eq := hintegrity
    wellFormed := hwell
    entry_eq := rfl
    entry_aligned := haligned
    entry_covered := hcovered
    placed := hplaced
    byteAt_eq := Memory.byteAt_partsMemory hvalid hplaced
    parts_eq := rfl
    footprint_eq := hfootprint.trans (footprint_eq_sum _)
    footprint_lt := lt_of_eq_of_lt hfootprint hsize }⟩

/-- A file with code that starts at the end of a page, data over its second word, and zeros over
both. -/
def overlapping : Bytes :=
  ((({} : Elf.Layout).code 0x103c [1, 2, 3, 4, 5, 6, 7, 8]).data 0x1041 [9, 9]
    |>.zeros 0x1000 0x80).build

theorem readProgramHeaders_overlapping :
    Elf.readProgramHeaders overlapping (.ofBytes overlapping) = .ok (some
      [⟨1, 148, 0x103c, 0x103c, 8, 8, 5, 4⟩, ⟨1, 156, 0x1041, 0x1041, 2, 2, 6, 4⟩,
        ⟨1, 160, 0x1000, 0x1000, 0, 0x80, 6, 4⟩]) := by
  decide +kernel

/-- Of the second word of the code, two bytes are overwritten by data and none by zeros. -/
theorem loadedFrom_of_load_overlapping :
    ∃ p table, load { memoryBits := 14, pageSize := 64 } overlapping = .ok p ∧
      p.LoadedFrom { memoryBits := 14, pageSize := 64 } overlapping table ∧
      table.length = 3 ∧
      [0x103f, 0x1040, 0x1041, 0x1042, 0x1043, 0x1044].map p.memory.byteAt =
        [4, 5, 9, 9, 8, 0] := by
  have hok : (load { memoryBits := 14, pageSize := 64 } overlapping).isOk = true := by
    decide +kernel
  cases hload : load { memoryBits := 14, pageSize := 64 } overlapping with
  | error e => simp [hload, Except.isOk, Except.toBool] at hok
  | ok p =>
    obtain ⟨table, htable, hloaded⟩ := (loadedFrom_of_load _ _).2 p hload
    obtain rfl := Option.some.inj (Except.ok.inj (readProgramHeaders_overlapping.symm.trans htable))
    refine ⟨p, _, rfl, hloaded, by decide, ?_⟩
    simp only [List.map_cons, List.map_nil, hloaded.byteAt_eq]
    decide +kernel

end Program

end ReplayVM
