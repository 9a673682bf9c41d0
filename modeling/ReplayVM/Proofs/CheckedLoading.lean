import Mathlib.Algebra.Ring.Nat
import ReplayVM.Proofs.FlatMemory
import ReplayVM.Proofs.ProgramConstruction

/-!
# Loading with checked operations

The file decides how many parts are loaded, how long they are and where they go. Loading reads bytes
of the file and of pages by index, adds up sizes in 64 bits and addresses in 32, and shifts by a
parameter. Here it is written with a check at each of these operations, and has no value where one
of them is out of range. It always has one, that of the loader: the tables are as short as their
counts, the parts lie in the address space before any of their bytes is written, and the parameters
were checked first.

## Main definitions

* `Checked`, `Checked.require`, `Checked.certain`: computations that may leave the range of an
  operation.
* `Program.load?`: the loader with its checks.

## Main results

* `Program.load?_eq`: no operation of the loader is out of range.
-/

namespace ReplayVM

/-! ### Checked computations -/

/-- A computation that stops at an error, or has no value where an operation is out of range. -/
abbrev Checked (α : Type) := ExceptT ProgramError Option α

namespace Checked

variable {α β : Type} {p : Prop} [Decidable p]

/-- Goes on if an operation is in range. -/
def require (p : Prop) [Decidable p] : Checked Unit := .mk (if p then some (.ok ()) else none)

/-- A computation with no operation to check. -/
def certain (x : Except ProgramError α) : Checked α := .mk (some x)

/-- A value if there is one. -/
def lift (x : Option α) : Checked α := .mk (x.map .ok)

theorem lift_some (a : α) : lift (some a) = certain (.ok a) := rfl

theorem require_bind {f : Unit → Checked α} (h : p) : require p >>= f = f () := by
  rw [require, if_pos h]
  rfl

theorem certain_ok_bind {f : α → Checked β} (a : α) : certain (.ok a) >>= f = f a := rfl

/-- Computations in a row are certain if each is, behind what those before it gave. -/
theorem certain_bind {x : Except ProgramError α} {f : α → Checked β}
    {g : α → Except ProgramError β} (h : ∀ a, x = .ok a → f a = certain (g a)) :
    certain x >>= f = certain (x >>= g) := by
  cases x with
  | error e => rfl
  | ok a => exact h a rfl

end Checked

open Checked

/-! ### Numbers in range -/

/-- The sum of two words fits 64 bits. -/
theorem toNat_add_toNat_lt (a b : UInt32) : a.toNat + b.toNat < UInt64.size := by
  have ha := a.toNat_lt
  have hb := b.toNat_lt
  change a.toNat + b.toNat < 2 ^ 64
  omega

/-- The words of pages inside the address space are numbered by words. -/
theorem Memory.Fits.index_lt_of_mem_words {m : Memory} (h : m.Fits) :
    ∀ word ∈ m.words, word.1 < UInt32.size := by
  rintro ⟨index, word⟩ hword
  obtain ⟨number, page, i, hpage, hi, rfl, -⟩ := Memory.mem_words.mp hword
  rw [h.size_page _ _ hpage] at hi
  calc number.toNat * (m.pageSize.toNat / 4) + i
    _ < (number.toNat + 1) * (m.pageSize.toNat / 4) := by rw [Nat.succ_mul]; omega
    _ ≤ (number.toNat + 1) * m.pageSize.toNat := Nat.mul_le_mul_left _ (Nat.div_le_self _ _)
    _ ≤ 1 <<< m.memoryBits.toNat := h.page_inside _ _ hpage
    _ ≤ 1 <<< 30 := h.size_le
    _ ≤ UInt32.size := by decide

/-! ### Parts of a file -/

namespace Elf

variable {params : Params} {file : Bytes}

/-- The byte of a file at an index. -/
def byte? (file : Bytes) (i : Nat) : Checked UInt8 := lift file[i]?

theorem byte?_eq {i : Nat} (h : i < file.length) :
    byte? file i = certain (.ok (file.getD i 0)) := by
  rw [byte?, List.getElem?_eq_getElem h, lift_some, List.getD_eq_getElem?_getD,
    List.getElem?_eq_getElem h, Option.getD_some]

/-- Checks the identification bytes, where each byte that is read must be in the file. -/
def checkIdent? (file : Bytes) : Checked Unit :=
  if file.length < identLength then throw (.format .missingMagic)
  else do
    require (4 ≤ file.length)
    if file.take 4 ≠ magic then throw (.format .missingMagic)
    else do
      let width ← byte? file 4
      if width = 2 then throw (.isa .wideClass)
      else if width ≠ 1 then throw (.format (.unknownClass width))
      else do
        let order ← byte? file 5
        if order ≠ 1 then throw (.format .notLittleEndian)
        else if file.length < headerLength then throw (.format .truncatedHeader)
        else do
          let version ← byte? file 6
          if version ≠ 1 then throw (.format (.identVersion version)) else pure ()

theorem checkIdent?_eq (file : Bytes) : checkIdent? file = certain (checkIdent file) := by
  rw [checkIdent?, checkIdent]
  by_cases hlen : file.length < identLength
  · rw [if_pos hlen, if_pos (.inl hlen)]
    rfl
  · have hbyte (i : Nat) (hi : i < identLength) :
        byte? file i = certain (.ok (file.getD i 0)) := byte?_eq (by omega)
    have hfour : 4 ≤ file.length := Nat.le_trans (by decide) (Nat.le_of_not_lt hlen)
    rw [if_neg hlen, require_bind hfour, hbyte 4 (by decide), hbyte 5 (by decide),
      hbyte 6 (by decide)]
    simp only [certain_ok_bind, hlen, false_or]
    split_ifs
    all_goals rfl

/-- The loaded parts with their data, where the sizes of the parts so far are added up. -/
def loadParts? (params : Params) (file : Bytes) :
    (size : Nat) → List ProgramHeader → Checked (List (ProgramHeader × Bytes))
  | _, [] => certain (.ok [])
  | size, h :: headers => do
    match ← certain (loadPart params file h) with
    | some data => do
      require (size + h.memSize.toNat < UInt64.size)
      let parts ← loadParts? params file (size + h.memSize.toNat) headers
      pure ((h, data) :: parts)
    | none => loadParts? params file size headers

/-- Sizes of fewer parts than there are words add up to 64 bits. -/
theorem loadParts?_eq {size : Nat} {headers : List ProgramHeader}
    (h : size + headers.length * 2 ^ 32 < UInt64.size) :
    loadParts? params file size headers = certain (loadParts params file headers) := by
  induction headers generalizing size with
  | nil => rfl
  | cons header headers ih =>
    have hsize := header.memSize.toNat_lt
    rw [List.length_cons] at h
    rw [loadParts?, loadParts]
    refine certain_bind fun data _ => ?_
    cases data with
    | none =>
      change loadParts? params file size headers = certain (loadParts params file headers >>= pure)
      rw [bind_pure]
      have hle : size + headers.length * 2 ^ 32 ≤ size + (headers.length + 1) * 2 ^ 32 := by omega
      exact ih (Nat.lt_of_le_of_lt hle h)
    | some data =>
      have hadd : size + header.memSize.toNat < UInt64.size := by omega
      refine (require_bind hadd).trans ?_
      rw [ih (by omega)]
      exact certain_bind fun parts _ => rfl

theorem length_table (n : Nat) (bytes : Bytes) : (ProgramHeader.table n bytes).length = n := by
  induction n generalizing bytes with
  | zero => rfl
  | succ n ih => rw [ProgramHeader.table, List.length_cons, ih]

theorem lt_of_programCount {h : Header} {count : Nat} (hcount : programCount file h = .ok count) :
    count < UInt32.size := by
  unfold programCount at hcount
  split at hcount
  · obtain ⟨words, -, hword⟩ := bind_eq_ok_iff.mp hcount
    rw [← Except.ok.inj hword]
    exact UInt32.toNat_lt_size _
  · rw [← Except.ok.inj hcount]
    exact Nat.lt_trans (UInt16.toNat_lt_size _) (by decide)

/-- A table has fewer entries than there are words. -/
theorem length_lt_of_readProgramHeaders {h : Header} {table : List ProgramHeader}
    (htable : readProgramHeaders file h = .ok (some table)) : table.length < UInt32.size := by
  unfold readProgramHeaders at htable
  split_ifs at htable
  · simp at htable
  · obtain ⟨count, hcount, bytes, -, hbytes⟩ := by simpa only [bind_eq_ok_iff] using htable
    obtain rfl := Option.some.inj (Except.ok.inj hbytes)
    rw [length_table]
    exact lt_of_programCount hcount

end Elf

/-! ### Programs -/

namespace Program

open Elf

variable {params : Params} {file : Bytes}

/-- The loaded parts of a file and its entry point. The parts are compared with the end of the
address space, which is a power of two. -/
def readParts? (params : Params) (file : Bytes) :
    Checked (UInt32 × List (ProgramHeader × Bytes)) := do
  checkIdent? file
  let header := Header.ofBytes file
  certain ((checkSections file header).mapError .format)
  let headers ← certain ((readProgramHeaders file header).mapError .format)
  certain (checkTarget header)
  let some headers := headers | throw (.format .noProgramHeaders)
  require (params.memoryBits.toNat < 32)
  let parts ← loadParts? params file 0 headers
  pure (header.entry, parts)

theorem readParts?_eq (h : params.memoryBits.toNat < 32) :
    readParts? params file = certain (readParts params file) := by
  rw [readParts?, readParts, checkIdent?_eq]
  refine certain_bind fun _ _ => certain_bind fun _ _ => certain_bind fun headers htable =>
    certain_bind fun _ _ => ?_
  cases headers with
  | none => rfl
  | some table =>
    have hlength := length_lt_of_readProgramHeaders (mapError_eq_ok_iff.mp htable)
    have hsize : 0 + table.length * 2 ^ 32 < UInt64.size := by
      rw [Nat.zero_add]
      exact Nat.mul_lt_mul_of_pos_right hlength (by decide)
    change require (params.memoryBits.toNat < 32) >>= _ = _
    rw [require_bind h, loadParts?_eq hsize]
    exact certain_bind fun parts _ => rfl

/-- Checks what holds of all parts together. The entry point is compared with the ends of parts. -/
def checkParts? (params : Params) (entry : UInt32) (headers : List ProgramHeader) :
    Checked Unit := do
  require (entry.toNat + 4 < UInt64.size)
  require (∀ h ∈ headers, h.fileEnd < UInt64.size)
  certain (checkParts params entry headers)

theorem checkParts?_eq (entry : UInt32) (headers : List ProgramHeader) :
    checkParts? params entry headers = certain (checkParts params entry headers) := by
  have hentry : entry.toNat + 4 < UInt64.size := toNat_add_toNat_lt entry 4
  have hends : ∀ h ∈ headers, h.fileEnd < UInt64.size :=
    fun h _ => toNat_add_toNat_lt h.vaddr h.fileSize
  rw [checkParts?, require_bind hentry, require_bind hends]

/-- The memory of regions. The bytes are written one by one, and the words of all pages are
numbered for the tree. -/
def memory? (params : Params) (regions : List (UInt32 × Bytes)) : Checked Memory := do
  require (2 ≤ params.memoryBits.toNat)
  let memory ← lift (Memory.ofRegions? params regions)
  require (∀ word ∈ memory.words, word.1 < UInt32.size)
  pure memory

theorem memory?_eq {regions : List (UInt32 × Bytes)} (h : params.validate = .ok ())
    (hinside : ∀ r ∈ regions, r.1.toNat + r.2.length ≤ 1 <<< params.memoryBits.toNat) :
    memory? params regions = certain (.ok (.ofRegions params regions)) := by
  obtain ⟨hbits, -⟩ := Params.validate_eq_ok_iff.mp h
  have hwords := (Memory.wellFormed_ofRegions h hinside).toFits.index_lt_of_mem_words
  rw [memory?, require_bind (by omega), Memory.ofRegions?_eq h hinside, lift_some,
    certain_ok_bind, require_bind hwords]
  rfl

/-- The program of a file. The end of the address space is computed again for the stack pointer. -/
def load? (params : Params) (file : Bytes) : Checked Program := do
  certain (params.validate.mapError .params)
  let (entry, parts) ← readParts? params file
  let headers := parts.map Prod.fst
  checkParts? params entry headers
  let memory ← memory? params (parts.map fun (h, data) => (h.vaddr, data))
  let info : ProgramInfo :=
    { fileHash := Hex.ofBytes (Blake3.hash file)
      parts := headers.map ProgramHeader.loaded
      footprint := (footprint headers).toUInt64 }
  require (params.memoryBits.toNat < 32)
  pure (make memory entry params info)

/-- No operation of the loader is out of range. -/
theorem load?_eq (params : Params) (file : Bytes) :
    load? params file = certain (load params file) := by
  rw [load?, load]
  refine certain_bind fun _ hvalid => ?_
  have hvalid := mapError_eq_ok_iff.mp hvalid
  obtain ⟨hbits, -⟩ := Params.validate_eq_ok_iff.mp hvalid
  rw [readParts?_eq (by omega)]
  refine certain_bind ?_
  rintro ⟨entry, parts⟩ hparts
  obtain ⟨table, -, -, rfl, hplaced⟩ := readParts_eq_ok hparts
  dsimp only
  rw [checkParts?_eq]
  refine certain_bind fun _ _ => ?_
  rw [memory?_eq hvalid, certain_ok_bind, require_bind (by omega)]
  · rfl
  · simp only [List.forall_mem_map]
    exact fun h hh => region_inside_of_placed hvalid (hplaced h hh)

end Program

end ReplayVM
