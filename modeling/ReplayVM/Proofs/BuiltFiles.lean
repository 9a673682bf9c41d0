import Mathlib.Order.Interval.Finset.Nat
import ReplayVM.Proofs.LoadedPrograms

/-!
# Files that are built

A file that is built from a layout is read back. Its header and its table have fixed places and
widths, so each field stands where the loader looks for it. The data of a part start where the parts
before it end, padded to whole words, and the table names this place. If the parts are disjoint and
inside the address space, they take less than all of it, and the loader has no reason to refuse the
file: the program has the bytes of each part at its place and zeros everywhere else.

## Main definitions

* `Elf.Part.Describes`: a program header that describes a part of a layout and its data in a file.
* `Elf.Layout.Loadable`: layouts of parts that can be loaded.
* `Program.Holds`: a program with the contents of a layout.

## Main results

* `Elf.Header.ofBytes_toBytes_append`, `Elf.ProgramHeader.table_flatMap_append`: headers are read
  back.
* `Elf.Layout.describes_headersFrom`: the table describes the parts.
* `sum_le_card_of_disjoint`: disjoint parts take no more than there is.
* `Program.load_build`: files that are built are loaded.
-/

namespace ReplayVM

namespace Elf

/-! ### Headers -/

section

variable (rest : Bytes) (offset : Nat)

theorem drop_ident_append : (Header.ident ++ rest).drop (offset + 16) = rest.drop offset := by
  rw [Nat.add_comm, ← List.drop_drop]
  rfl

theorem drop_ofHalf_append (n : UInt16) :
    (ofHalf n ++ rest).drop (offset + 2) = rest.drop offset := by
  rw [Nat.add_comm, ← List.drop_drop]
  rfl

theorem drop_ofWord_append (w : UInt32) :
    (Bytes.ofWord w ++ rest).drop (offset + 4) = rest.drop offset := by
  rw [Nat.add_comm, ← List.drop_drop]
  rfl

theorem take_ofHalf_append (n : UInt16) : (ofHalf n ++ rest).take 2 = ofHalf n := rfl

theorem take_ofWord_append (w : UInt32) : (Bytes.ofWord w ++ rest).take 4 = Bytes.ofWord w := rfl

theorem leValue_ofHalf (n : UInt16) : (Bytes.leValue (ofHalf n)).toUInt16 = n := by
  rw [ofHalf, Bytes.leValue_le (by simpa using n.toNat_lt)]
  exact UInt16.ofNat_toNat

end

theorem Header.ofBytes_toBytes_append (h : Header) (rest : Bytes) :
    Header.ofBytes (h.toBytes ++ rest) = h := by
  simp only [ofBytes, toBytes, wordAt, halfAt, List.append_assoc, drop_ident_append,
    drop_ofHalf_append, drop_ofWord_append, List.drop_zero, take_ofHalf_append,
    take_ofWord_append, leValue_ofHalf, Bytes.toWord_ofWord]

theorem ProgramHeader.ofBytes_toBytes_append (h : ProgramHeader) (rest : Bytes) :
    ProgramHeader.ofBytes (h.toBytes ++ rest) = h := by
  simp only [ofBytes, toBytes, wordAt, List.flatMap_cons, List.append_assoc, drop_ofWord_append,
    List.drop_zero, take_ofWord_append, Bytes.toWord_ofWord]

/-! ### Tables -/

@[simp] theorem Header.length_toBytes (h : Header) : h.toBytes.length = headerLength := by
  simp [toBytes, ident, magic, ofHalf, headerLength]

@[simp] theorem ProgramHeader.length_toBytes (h : ProgramHeader) :
    h.toBytes.length = programHeaderLength := by
  simp [toBytes, programHeaderLength]

theorem ProgramHeader.length_flatMap_toBytes (headers : List ProgramHeader) :
    (headers.flatMap toBytes).length = programHeaderLength * headers.length := by
  induction headers with
  | nil => rfl
  | cons h headers ih =>
    rw [List.flatMap_cons, List.length_append, length_toBytes, ih, List.length_cons, Nat.mul_succ,
      Nat.add_comm]

theorem ProgramHeader.table_flatMap_append (headers : List ProgramHeader) (rest : Bytes) :
    table headers.length (headers.flatMap toBytes ++ rest) = headers := by
  induction headers with
  | nil => rfl
  | cons h headers ih =>
    rw [List.flatMap_cons, List.append_assoc, List.length_cons, table, ofBytes_toBytes_append,
      List.drop_left' h.length_toBytes, ih]

/-! ### Parts in a file -/

/-- A program header that describes a part and the place of its data in a file. -/
structure Part.Describes (file : Bytes) (part : Part) (h : ProgramHeader) : Prop where
  kind_eq : h.kind = part.kind
  vaddr_eq : h.vaddr = part.vaddr
  fileSize_eq : h.fileSize = part.data.length.toUInt32
  toNat_fileSize : h.fileSize.toNat = part.data.length
  memSize_eq : h.memSize = part.memSize
  flags_eq : h.flags = part.flags
  data_eq : h.data file = part.data
  data_inside : h.offset.toNat + h.fileSize.toNat ≤ file.length

namespace Layout

theorem length_padded (data : Bytes) : data.length ≤ (padded data).length ∧
    (padded data).length ≤ data.length + 3 := by
  rw [padded, List.length_append, List.length_replicate]
  omega

theorem length_headersFrom (offset : Nat) (parts : List Part) :
    (headersFrom offset parts).length = parts.length := by
  induction parts generalizing offset with
  | nil => rfl
  | cons part parts ih => rw [headersFrom, List.length_cons, List.length_cons, ih]

/-- The table describes the parts, when their data follow one another behind some bytes. -/
theorem describes_headersFrom {file pre : Bytes} {parts : List Part}
    (hfile : file = pre ++ parts.flatMap fun part => padded part.data)
    (hlen : file.length < 2 ^ 32) :
    List.Forall₂ (Part.Describes file) parts (headersFrom pre.length parts) := by
  induction parts generalizing pre with
  | nil => exact .nil
  | cons part parts ih =>
    rw [List.flatMap_cons] at hfile
    have hpadded := length_padded part.data
    have hlength : file.length = pre.length + ((padded part.data).length +
        (parts.flatMap fun part => padded part.data).length) := by
      rw [hfile, List.length_append, List.length_append]
    have hoffset : pre.length.toUInt32.toNat = pre.length :=
      UInt32.toNat_ofNat_of_lt' (Nat.lt_of_le_of_lt (by omega) hlen)
    have hsize : part.data.length.toUInt32.toNat = part.data.length :=
      UInt32.toNat_ofNat_of_lt' (Nat.lt_of_le_of_lt (by omega) hlen)
    refine .cons ⟨rfl, rfl, rfl, hsize, rfl, rfl, ?_, ?_⟩ ?_
    · rw [ProgramHeader.data, hoffset, hsize, hfile, List.drop_left, padded, List.append_assoc,
        List.take_left]
    · rw [hoffset, hsize]
      omega
    · rw [← List.append_assoc] at hfile
      have hrest := ih hfile
      rwa [List.length_append] at hrest

/-! ### Files -/

/-- The table of the file. -/
def table (l : Layout) : List ProgramHeader := headersFrom l.dataOffset l.parts

/-- What stands in front of the data of the parts. -/
def front (l : Layout) : Bytes := l.header.toBytes ++ l.table.flatMap ProgramHeader.toBytes

theorem build_eq (l : Layout) : l.build = l.front ++ l.parts.flatMap fun part => padded part.data :=
  rfl

theorem length_table (l : Layout) : l.table.length = l.parts.length := length_headersFrom _ _

theorem length_front (l : Layout) : l.front.length = l.dataOffset := by
  rw [front, List.length_append, Header.length_toBytes, ProgramHeader.length_flatMap_toBytes,
    length_table, dataOffset, Nat.mul_comm]

theorem describes_table {l : Layout} (hlen : l.build.length < 2 ^ 32) :
    List.Forall₂ (Part.Describes l.build) l.parts l.table := by
  rw [table, ← length_front]
  exact describes_headersFrom l.build_eq hlen

@[simp] theorem ofBytes_build (l : Layout) : Header.ofBytes l.build = l.header := by
  rw [build_eq, front, List.append_assoc, Header.ofBytes_toBytes_append]

theorem checkIdent_ident_append {rest : Bytes}
    (h : headerLength ≤ (Header.ident ++ rest).length) :
    checkIdent (Header.ident ++ rest) = .ok () := by
  have hmagic : (Header.ident ++ rest).take 4 = magic := rfl
  have hclass : (Header.ident ++ rest).getD 4 0 = 1 := rfl
  have horder : (Header.ident ++ rest).getD 5 0 = 1 := rfl
  have hversion : (Header.ident ++ rest).getD 6 0 = 1 := rfl
  have hident : identLength ≤ (Header.ident ++ rest).length := Nat.le_trans (by decide) h
  simp only [checkIdent, hmagic, hclass, horder, hversion, Nat.not_lt.mpr h, Nat.not_lt.mpr hident]
  rfl

theorem checkIdent_build (l : Layout) : checkIdent l.build = .ok () := by
  have hlength : headerLength ≤ l.build.length := by
    rw [build_eq, front, List.append_assoc, List.length_append, Header.length_toBytes]
    exact Nat.le_add_right _ _
  rw [build_eq, front, Header.toBytes] at hlength ⊢
  simp only [List.append_assoc] at hlength ⊢
  exact checkIdent_ident_append hlength

theorem readRange_append (pre bytes rest : Bytes) :
    readRange (pre ++ bytes ++ rest) pre.length (pre.length + bytes.length) = .ok bytes := by
  have hinside : pre.length ≤ (pre ++ bytes ++ rest).length ∧
      pre.length + bytes.length ≤ (pre ++ bytes ++ rest).length := by
    simp only [List.length_append]
    omega
  rw [readRange, if_pos hinside, Nat.add_sub_cancel_left, List.append_assoc, List.drop_left,
    List.take_left]

theorem readProgramHeaders_build {l : Layout} (hparts : l.parts ≠ [])
    (hcount : l.parts.length ≤ 65534) :
    readProgramHeaders l.build l.header = .ok (some l.table) := by
  have hoffset : l.header.programOffset = 52 := if_neg (by simpa using hparts)
  have hlength : l.parts.length.toUInt16.toNat = l.parts.length :=
    UInt16.toNat_ofNat_of_lt' (Nat.lt_of_le_of_lt hcount (by decide))
  have hnumber : programCount l.build l.header = .ok l.parts.length := by
    have hne : l.header.programCount ≠ 0xffff := fun h => by
      have := hlength.symm.trans (congrArg UInt16.toNat h)
      exact absurd this (by simp; omega)
    rw [programCount, if_neg hne]
    exact congrArg Except.ok hlength
  have hread : readRange l.build 52 (52 + programHeaderLength * l.parts.length) =
      .ok (l.table.flatMap ProgramHeader.toBytes) := by
    have hrange := readRange_append l.header.toBytes (l.table.flatMap ProgramHeader.toBytes)
      (l.parts.flatMap fun part => padded part.data)
    rwa [Header.length_toBytes, ProgramHeader.length_flatMap_toBytes, length_table] at hrange
  have htable := ProgramHeader.table_flatMap_append l.table []
  rw [List.append_nil, length_table] at htable
  have hentry : ¬l.header.programEntrySize.toNat ≠ programHeaderLength := not_not.mpr rfl
  have hstart : (52 : UInt32).toNat = 52 := rfl
  rw [readProgramHeaders, hoffset, if_neg (by decide), hnumber]
  simp only [readTable, if_neg hentry, hstart, bind, Except.bind, hread, pure, Except.pure, htable]

end Layout

/-! ### Parts that are accepted -/

section

variable {params : Params} {file : Bytes} {h : ProgramHeader} {headers : List ProgramHeader}

/-- A placed part is loaded with its data. -/
theorem loadPart_of_placed (hloaded : h.isLoaded = true) (hplaced : h.Placed params file) :
    loadPart params file h = .ok (some (h.data file)) := by
  obtain ⟨hkind, hsize⟩ : h.kind = ProgramHeader.loadKind ∧ h.memSize ≠ 0 := by
    simpa [ProgramHeader.isLoaded] using hloaded
  have hplace : checkPlace params h = .ok () := by
    rw [checkPlace, if_neg (UInt32.not_lt.mpr (UInt32.le_iff_toNat_le.mpr hplaced.fileSize_le)),
      if_neg (UInt32.not_lt.mpr (UInt32.le_iff_toNat_le.mpr hplaced.minMemory_le)),
      if_neg (Nat.not_lt.mpr hplaced.memEnd_le)]
  have hdata : partData file h = .ok (h.data file) := by
    have hinside := hplaced.data_inside
    rw [partData]
    simp only [readRange, if_pos (And.intro (Nat.le_trans (Nat.le_add_right _ _) hinside) hinside),
      Nat.add_sub_cancel_left]
    rfl
  have hkinds : h.kind ≠ ProgramHeader.dynamicKind ∧ h.kind ≠ ProgramHeader.interpreterKind ∧
      h.kind ≠ ProgramHeader.threadLocalKind := by
    rw [hkind]
    decide
  rw [loadPart, if_neg hkinds.1, if_neg hkinds.2.1, if_neg hkinds.2.2,
    if_neg (not_or.mpr ⟨not_not.mpr hkind, hsize⟩), hplace, hdata]
  rfl

theorem loadParts_of_placed (hall : ∀ h ∈ headers, h.isLoaded = true ∧ h.Placed params file) :
    loadParts params file headers = .ok (headers.map fun h => (h, h.data file)) := by
  induction headers with
  | nil => rfl
  | cons h headers ih =>
    obtain ⟨⟨hloaded, hplaced⟩, hrest⟩ := List.forall_mem_cons.mp hall
    rw [loadParts, loadPart_of_placed hloaded hplaced, ih hrest]
    rfl

end

end Elf

theorem exists_of_forall₂ {α β : Type} {R : α → β → Prop} {as : List α} {bs : List β}
    (h : List.Forall₂ R as bs) {b : β} (hb : b ∈ bs) : ∃ a ∈ as, R a b := by
  induction h with
  | nil => cases hb
  | cons hab _ ih =>
    rcases List.mem_cons.mp hb with rfl | hb
    · exact ⟨_, List.mem_cons_self, hab⟩
    · obtain ⟨a, ha, hR⟩ := ih hb
      exact ⟨a, List.mem_cons_of_mem _ ha, hR⟩

/-! ### Disjoint parts -/

/-- Disjoint parts of a set have no more elements than the set. -/
theorem sum_le_card_of_disjoint {ι : Type} (f : ι → Finset Nat) {is : List ι} {s : Finset Nat}
    (hsub : ∀ i ∈ is, f i ⊆ s) (hdisjoint : is.Pairwise fun i j => Disjoint (f i) (f j)) :
    (is.map fun i => (f i).card).sum ≤ s.card := by
  induction is generalizing s with
  | nil => exact Nat.zero_le _
  | cons i is ih =>
    obtain ⟨hi, his⟩ := List.forall_mem_cons.mp hsub
    obtain ⟨hfirst, hrest⟩ := List.pairwise_cons.mp hdisjoint
    have hle := ih (s := s \ f i)
      (fun j hj => Finset.subset_sdiff.mpr ⟨his j hj, (hfirst j hj).symm⟩) hrest
    have hcard := Finset.card_sdiff_add_card_eq_card hi
    rw [List.map_cons, List.sum_cons]
    omega

namespace Elf

/-- The address past the last byte of a part in memory. -/
def Part.memEnd (part : Part) : Nat := part.vaddr.toNat + part.memSize.toNat

/-- Parts that have no address in common. -/
def Part.Apart (part other : Part) : Prop :=
  part.memEnd ≤ other.vaddr.toNat ∨ other.memEnd ≤ part.vaddr.toNat

instance : Std.Symm Part.Apart := ⟨fun _ _ => Or.symm⟩

instance (part other : Part) : Decidable (part.Apart other) := inferInstanceAs (Decidable (_ ∨ _))

/-- A layout of parts that can be loaded: for the machine, not too many, with memory for their data,
inside the address space, without an address in common, and with an entry point in the data of
executable code. -/
structure Layout.Loadable (params : Params) (l : Layout) : Prop where
  fileType_eq : l.fileType = executableType
  machine_eq : l.machine = riscvMachine
  flags_eq : l.flags = 0
  parts_ne : l.parts ≠ []
  count_le : l.parts.length ≤ 65534
  kind_eq : ∀ part ∈ l.parts, part.kind = ProgramHeader.loadKind
  memSize_ne : ∀ part ∈ l.parts, part.memSize ≠ 0
  data_le : ∀ part ∈ l.parts, part.data.length ≤ part.memSize.toNat
  minMemory_le : ∀ part ∈ l.parts, minMemory.toNat ≤ part.vaddr.toNat
  memEnd_le : ∀ part ∈ l.parts, part.memEnd ≤ params.maxMemory.toNat
  apart : l.parts.Pairwise Part.Apart
  entry_aligned : (l.entry.getD 0).toNat % 4 = 0
  entry_inside : ∃ part ∈ l.parts, part.flags &&& 1 ≠ 0 ∧
    part.vaddr.toNat ≤ (l.entry.getD 0).toNat ∧
      (l.entry.getD 0).toNat + 4 ≤ part.vaddr.toNat + part.data.length

namespace Layout.Loadable

variable {params : Params} {l : Layout}

/-- The parts take less memory than there is, as none of them lies below the lowest address. -/
theorem sum_memSize_le (h : l.Loadable params) :
    (l.parts.map fun part => part.memSize.toNat).sum ≤
      params.maxMemory.toNat - minMemory.toNat := by
  have hle := sum_le_card_of_disjoint (fun part : Part => Finset.Ico part.vaddr.toNat part.memEnd)
    (fun part hpart => Finset.Ico_subset_Ico (h.minMemory_le part hpart) (h.memEnd_le part hpart))
    (h.apart.imp fun hapart => Finset.disjoint_left.mpr fun addr haddr hother => by
      rw [Finset.mem_Ico] at haddr hother
      rcases hapart with hle | hle <;> omega)
  simpa only [Nat.card_Ico, Part.memEnd, Nat.add_sub_cancel_left] using hle

theorem sum_memSize_lt (h : l.Loadable params) :
    (l.parts.map fun part => part.memSize.toNat).sum < params.maxMemory.toNat := by
  have hle := h.sum_memSize_le
  have hmin : minMemory.toNat = 4096 := rfl
  obtain ⟨part, hpart, -⟩ := h.entry_inside
  have hguard := h.minMemory_le part hpart
  have hend := h.memEnd_le part hpart
  unfold Part.memEnd at hend
  omega

/-- The offsets of a file fit their fields. -/
theorem length_build_lt (h : l.Loadable params) (hvalid : params.validate = .ok ()) :
    l.build.length < 2 ^ 32 := by
  have hdata (parts : List Part) (hparts : ∀ part ∈ parts, part.data.length ≤ part.memSize.toNat) :
      (parts.flatMap fun part => padded part.data).length ≤
        (parts.map fun part => part.memSize.toNat).sum + 3 * parts.length := by
    induction parts with
    | nil => exact Nat.le_refl 0
    | cons part parts ih =>
      obtain ⟨hpart, hrest⟩ := List.forall_mem_cons.mp hparts
      have hpadded := (length_padded part.data).2
      have hle := ih hrest
      rw [List.flatMap_cons, List.length_append, List.map_cons, List.sum_cons, List.length_cons]
      omega
  have hfits := (Memory.wellFormed_empty hvalid).toFits
  have hmax : params.maxMemory.toNat ≤ 1073741824 :=
    (hfits.toNat_maxMemory ⟨rfl, rfl⟩).trans_le hfits.size_le
  have hsum := h.sum_memSize_lt
  have hcount := h.count_le
  have hparts := hdata l.parts h.data_le
  rw [build_eq, List.length_append, length_front, dataOffset, headerLength, programHeaderLength]
  omega

variable (h : l.Loadable params) (hvalid : params.validate = .ok ())

include h hvalid

theorem describes : List.Forall₂ (Part.Describes l.build) l.parts l.table :=
  describes_table (h.length_build_lt hvalid)

theorem exists_part {entry : ProgramHeader} (hentry : entry ∈ l.table) :
    ∃ part ∈ l.parts, part.Describes l.build entry :=
  exists_of_forall₂ (h.describes hvalid) hentry

theorem exists_entry {part : Part} (hpart : part ∈ l.parts) :
    ∃ entry ∈ l.table, part.Describes l.build entry :=
  exists_of_forall₂ (h.describes hvalid).flip hpart

/-- What the table says of the parts. -/
theorem map_table {α : Type} {f : Part → α} {g : ProgramHeader → α}
    (hfg : ∀ part entry, part.Describes l.build entry → f part = g entry) :
    l.table.map g = l.parts.map f := by
  have hmaps : List.Forall₂ (· = ·) (l.parts.map f) (l.table.map g) := by
    rw [List.forall₂_map_left_iff, List.forall₂_map_right_iff]
    exact (h.describes hvalid).imp hfg
  rw [List.forall₂_eq_eq_eq] at hmaps
  exact hmaps.symm

/-- The parts are loaded, and placed. -/
theorem isLoaded_and_placed {entry : ProgramHeader} (hentry : entry ∈ l.table) :
    entry.isLoaded = true ∧ entry.Placed params l.build := by
  obtain ⟨part, hpart, hdescribes⟩ := h.exists_part hvalid hentry
  constructor
  · rw [ProgramHeader.isLoaded, hdescribes.kind_eq, hdescribes.memSize_eq, h.kind_eq part hpart]
    simpa using h.memSize_ne part hpart
  · have hend := h.memEnd_le part hpart
    refine ⟨?_, ?_, ?_, hdescribes.data_inside⟩
    · rw [hdescribes.toNat_fileSize, hdescribes.memSize_eq]
      exact h.data_le part hpart
    · rw [hdescribes.vaddr_eq]
      exact h.minMemory_le part hpart
    · rwa [ProgramHeader.memEnd, hdescribes.vaddr_eq, hdescribes.memSize_eq]

theorem readParts_build : Program.readParts params l.build =
    .ok (l.entry.getD 0, l.table.map fun entry => (entry, entry.data l.build)) := by
  have hident := checkIdent_build l
  have hsections : checkSections l.build l.header = .ok () := rfl
  have hheaders := readProgramHeaders_build h.parts_ne h.count_le
  have htarget : checkTarget l.header = .ok () := by
    simp only [checkTarget, header, h.machine_eq, h.fileType_eq, h.flags_eq]
    rfl
  have hparts := loadParts_of_placed fun _ hentry => h.isLoaded_and_placed hvalid hentry
  simp only [Program.readParts, hident, ofBytes_build, hsections, hheaders, htarget, hparts, bind,
    Except.bind, Except.mapError, pure, Except.pure]
  rfl

omit hvalid in
/-- Parts that give a byte to one address are equal. -/
theorem eq_of_covered {part other : Part} (hpart : part ∈ l.parts) (hother : other ∈ l.parts)
    {addr : Nat} (haddr : part.vaddr.toNat ≤ addr ∧ addr < part.vaddr.toNat + part.data.length)
    (haddr' : other.vaddr.toNat ≤ addr ∧ addr < other.vaddr.toNat + other.data.length) :
    part = other := by
  by_contra hne
  have hapart := h.apart.forall hpart hother hne
  have hdata := h.data_le part hpart
  have hdata' := h.data_le other hother
  unfold Part.Apart Part.memEnd at hapart
  omega

/-- The bytes that the file gives to addresses: the data of the parts, and zeros elsewhere. -/
theorem fileByteAt_build :
    (∀ part ∈ l.parts, ∀ i (hi : i < part.data.length),
      fileByteAt l.build l.table (part.vaddr.toNat + i) = part.data[i]) ∧
    ∀ addr, (∀ part ∈ l.parts,
      ¬(part.vaddr.toNat ≤ addr ∧ addr < part.vaddr.toNat + part.data.length)) →
        fileByteAt l.build l.table addr = 0 := by
  have hcovers {part : Part} {entry : ProgramHeader} (hdescribes : part.Describes l.build entry)
      (addr : Nat) : entry.covers addr = true ↔
        part.vaddr.toNat ≤ addr ∧ addr < part.vaddr.toNat + part.data.length := by
    rw [ProgramHeader.covers_iff, ProgramHeader.fileEnd, hdescribes.vaddr_eq,
      hdescribes.toNat_fileSize]
  constructor
  · intro part hpart i hi
    have haddr : part.vaddr.toNat ≤ part.vaddr.toNat + i ∧
        part.vaddr.toNat + i < part.vaddr.toNat + part.data.length := by omega
    rw [fileByteAt]
    cases hlast : (l.table.filter (·.covers (part.vaddr.toNat + i))).getLast? with
    | none =>
      obtain ⟨entry, hentry, hdescribes⟩ := h.exists_entry hvalid hpart
      have hnone := List.getLast?_eq_none_iff.mp hlast
      exact absurd ((hcovers hdescribes _).mpr haddr) (List.filter_eq_nil_iff.mp hnone entry hentry)
    | some entry =>
      -- The last part that covers the address is the only one.
      obtain ⟨hentry, hcovered⟩ := List.mem_filter.mp (List.mem_of_getLast? hlast)
      obtain ⟨other, hother, hdescribes⟩ := h.exists_part hvalid hentry
      obtain rfl := h.eq_of_covered hpart hother haddr ((hcovers hdescribes _).mp hcovered)
      simp only
      rw [hdescribes.vaddr_eq, Nat.add_sub_cancel_left, ← ProgramHeader.getD_data
        (hdescribes.toNat_fileSize ▸ hi), hdescribes.data_eq, List.getD_eq_getElem?_getD,
        List.getElem?_eq_getElem hi, Option.getD_some]
  · intro addr hnone
    have hfilter : l.table.filter (·.covers addr) = [] := by
      refine List.filter_eq_nil_iff.mpr fun entry hentry hcovered => ?_
      obtain ⟨part, hpart, hdescribes⟩ := h.exists_part hvalid hentry
      exact hnone part hpart ((hcovers hdescribes addr).mp hcovered)
    rw [fileByteAt, hfilter, List.getLast?_nil]

end Layout.Loadable

/-- The record of a part of a layout. -/
def Part.loaded (part : Part) : LoadedPart :=
  ⟨part.vaddr, part.data.length.toUInt32, part.memSize, part.flags⟩

end Elf

namespace Program

/-- A program with the contents of a layout. -/
structure Holds (params : Params) (l : Elf.Layout) (p : Program) : Prop where
  params_eq : p.params = params
  entry_eq : p.entry = l.entry.getD 0
  /-- The tree of the memory is that of its words. -/
  wellFormed : p.memory.WellFormed
  byteAt_data : ∀ part ∈ l.parts, ∀ i (hi : i < part.data.length),
    p.memory.byteAt (part.vaddr + i.toUInt32) = part.data[i]
  byteAt_zero : ∀ addr : UInt32, (∀ part ∈ l.parts, ¬(part.vaddr.toNat ≤ addr.toNat ∧
    addr.toNat < part.vaddr.toNat + part.data.length)) → p.memory.byteAt addr = 0
  parts_eq : p.info.parts = l.parts.map Elf.Part.loaded
  footprint_eq : p.info.footprint.toNat = (l.parts.map fun part => part.memSize.toNat).sum

section

variable {params : Params} {l : Elf.Layout}

theorem footprint_table (h : l.Loadable params) (hvalid : params.validate = .ok ()) :
    footprint l.table = (l.parts.map fun part => part.memSize.toNat).sum := by
  have hmaps : l.table.map (fun entry => entry.memSize.toNat) =
      l.parts.map fun part => part.memSize.toNat :=
    h.map_table hvalid fun _ _ hdescribes => by rw [hdescribes.memSize_eq]
  rw [footprint_eq_sum, hmaps]

theorem checkParts_build (h : l.Loadable params) (hvalid : params.validate = .ok ()) :
    checkParts params (l.entry.getD 0) l.table = .ok () := by
  have hempty : l.table.isEmpty = false := by
    rw [List.isEmpty_eq_false_iff, ← List.length_pos_iff, l.length_table, List.length_pos_iff]
    exact h.parts_ne
  have hfootprint : footprint l.table < params.maxMemory.toNat := by
    rw [footprint_table h hvalid]
    exact h.sum_memSize_lt
  have hentry : Elf.isEntry l.table (l.entry.getD 0) = true := by
    obtain ⟨part, hpart, hflags, hstart, hend⟩ := h.entry_inside
    obtain ⟨entry, hmem, hdescribes⟩ := h.exists_entry hvalid hpart
    refine Elf.isEntry_eq_true_iff.mpr ⟨h.entry_aligned, entry, hmem, ?_, ?_, ?_⟩
    · rw [Elf.ProgramHeader.isExecutable, hdescribes.flags_eq]
      simpa using hflags
    · rwa [hdescribes.vaddr_eq]
    · rwa [Elf.ProgramHeader.fileEnd, hdescribes.vaddr_eq, hdescribes.toNat_fileSize]
  rw [checkParts, hempty, if_neg (by decide), if_neg (Nat.not_le.mpr hfootprint), hentry]
  rfl

end

/-- **Loading undoes building.** The file that is built from any number of parts that can be loaded
is accepted, under any valid parameters. The memory of the program has the data of each part at its
place and zeros everywhere else; its entry point is that of the layout; and its record lists the
parts in their order and the sum of their sizes. -/
theorem load_build (params : Params) (l : Elf.Layout) (hvalid : params.validate = .ok ())
    (h : l.Loadable params) : ∃ p, load params l.build = .ok p ∧ p.Holds params l := by
  have hparts := h.readParts_build hvalid
  have hcheck := checkParts_build h hvalid
  have hfst : (l.table.map fun entry => (entry, entry.data l.build)).map Prod.fst = l.table := by
    rw [List.map_map]
    exact List.map_id _
  have hload : load params l.build = .ok
      (make (partsMemory params l.build l.table) (l.entry.getD 0) params
        (partsInfo l.build l.table)) := by
    simp only [load, hvalid, hparts, hfst, hcheck, bind, Except.bind, Except.mapError, pure,
      Except.pure]
    rw [List.map_map]
    rfl
  have hplaced (entry : Elf.ProgramHeader) (hentry : entry ∈ l.table) :=
    (h.isLoaded_and_placed hvalid hentry).2
  have hbyte := Memory.byteAt_partsMemory hvalid hplaced
  obtain ⟨hdata, hzero⟩ := h.fileByteAt_build hvalid
  have hfootprint := footprint_table h hvalid
  refine ⟨_, hload, {
    params_eq := rfl
    entry_eq := rfl
    wellFormed := Memory.wellFormed_ofRegions hvalid (List.forall_mem_map.mpr fun entry hentry =>
      region_inside_of_placed hvalid (hplaced entry hentry))
    byteAt_data := fun part hpart i hi => ?_
    byteAt_zero := fun addr haddr => (hbyte addr).trans (hzero addr.toNat haddr)
    parts_eq := h.map_table hvalid fun _ _ hdescribes => by
      rw [Elf.ProgramHeader.loaded, hdescribes.vaddr_eq, hdescribes.fileSize_eq,
        hdescribes.memSize_eq, hdescribes.flags_eq, Elf.Part.loaded]
    footprint_eq := ?_ }⟩
  · have hend := h.memEnd_le part hpart
    have hsize := h.data_le part hpart
    have hmax := params.maxMemory.toNat_lt
    unfold Elf.Part.memEnd at hend
    have haddr : (part.vaddr + i.toUInt32).toNat = part.vaddr.toNat + i := by
      rw [UInt32.toNat_add, Nat.toUInt32_eq, UInt32.toNat_ofNat']
      omega
    exact (hbyte _).trans (haddr ▸ hdata part hpart i hi)
  · have hlt := h.sum_memSize_lt
    have hmax := params.maxMemory.toNat_lt
    refine Eq.trans ?_ hfootprint
    exact UInt64.toNat_ofNat_of_lt' (by rw [hfootprint, UInt64.size]; omega)

namespace OddParts

/-- The parameters of a small machine. -/
def small : Params := { memoryBits := 14, pageSize := 64 }

/-- Code, zeros and data in this order, none of them a whole number of words, and the data in front
of the zeros in memory. -/
def layout : Elf.Layout where
  entry := some 0x1004
  parts := [⟨1, 0x1000, [1, 2, 3, 4, 0x13, 5, 0x70, 0, 9], 0x10, 5⟩, ⟨1, 0x3001, [], 7, 6⟩,
    ⟨1, 0x2041, [6, 7, 8], 5, 6⟩]

theorem loadable : layout.Loadable small where
  fileType_eq := rfl
  machine_eq := rfl
  flags_eq := rfl
  parts_ne := List.cons_ne_nil _ _
  count_le := by decide
  kind_eq := by decide
  memSize_ne := by decide
  data_le := by decide
  minMemory_le := by decide
  memEnd_le := by decide
  apart := by decide
  entry_aligned := by decide
  entry_inside := ⟨_, List.mem_cons_self, by decide, by decide, by decide⟩

end OddParts

open OddParts in
/-- The last of three parts is found behind an odd number of bytes. -/
theorem load_build_oddParts : ∃ p, load small layout.build = .ok p ∧ p.Holds small layout ∧
    p.entry = 0x1004 ∧ p.memory.byteAt 0x2042 = 7 ∧ p.memory.byteAt 0x2044 = 0 ∧
      p.info.footprint.toNat = 28 := by
  obtain ⟨p, hload, hholds⟩ := load_build small layout (by decide) loadable
  refine ⟨p, hload, hholds, hholds.entry_eq, ?_, ?_, hholds.footprint_eq⟩
  · exact hholds.byteAt_data ⟨1, 0x2041, [6, 7, 8], 5, 6⟩ (by simp [layout]) 1 (by decide)
  · exact hholds.byteAt_zero 0x2044 (by decide)

end Program

end ReplayVM
