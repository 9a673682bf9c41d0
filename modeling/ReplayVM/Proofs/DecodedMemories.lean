import ReplayVM.Proofs.MemoryCopies
import ReplayVM.Proofs.ProgramConstruction

/-!
# Memories that were decoded

Reading accepts the snapshot of a memory exactly if its layout is one that parameters may have and
its pages lie inside the address space. Building a memory from regions checks neither, so there are
memories that do not come back from their encoding; but those that do come back with their pages and
with their root, although the tree of one was kept up to date by stores and that of the other was
built in one go.

## Main definitions

* `Memory.Built`: memories that come from regions or byte strings, with stores behind.

## Main results

* `Memory.exists_readFrom_of_decode`: what a byte string says of the memory that is decoded from it.
* `Memory.FullPages.exists_decode_encode_iff`: the memories that come back from their encoding.
* `Memory.Built.wellFormed`: the built ones among them are well formed.
-/

namespace ReplayVM

open Format

namespace Memory

variable {m n : Memory} {bytes : Bytes}

/-! ### What was decoded -/

/-- A memory that was decoded is read from a snapshot. -/
theorem exists_readFrom_of_decode (h : format.decode bytes = .ok m) :
    ∃ s, Snapshot.format.decode bytes = .ok s ∧ m.ReadFrom s ∧ m.WellFormed := by
  obtain ⟨s, hread, hs⟩ := read_of_refine (decode_eq_ok_iff_run.mp h)
  exact ⟨s, decode_eq_ok_iff_run.mpr hread, readFrom_of_ofSnapshot hs, wellFormed_ofSnapshot hs⟩

theorem wellFormed_of_decode (h : format.decode bytes = .ok m) : m.WellFormed := by
  obtain ⟨-, -, -, hwell⟩ := exists_readFrom_of_decode h
  exact hwell

/-- Memories with the same pages that were both decoded have the same tree. -/
theorem tree_eq_of_decode {bytes' : Bytes} (hm : format.decode bytes = .ok m)
    (hn : format.decode bytes' = .ok n) (h : m.SamePages n) : n.tree = m.tree := by
  obtain ⟨s, -, hs, -⟩ := exists_readFrom_of_decode hm
  obtain ⟨s', -, hs', -⟩ := exists_readFrom_of_decode hn
  rw [hs.tree_eq, hs'.tree_eq, h.memoryBits_eq, h.words_eq]

/-- What holds of a memory that was decoded from a byte string. -/
structure DecodedFrom (m : Memory) (bytes : Bytes) : Prop where
  layout_valid : m.snapshot.layout.validate = .ok ()
  page_inside : ∀ (number : UInt32) (page : Page), m.pages[number]? = some page →
    page.size = m.pageSize.toNat ∧ (number.toNat + 1) * m.pageSize.toNat ≤ 1 <<< m.memoryBits.toNat
  /-- The layout and the pages are those in the byte string, the last one of each number. -/
  readFrom : ∃ s, Snapshot.format.decode bytes = .ok s ∧ m.ReadFrom s
  root_eq : m.root = Merkle.fullNode m.wordAt (treeDepth m.memoryBits) 0
  /-- The pages are encoded by ascending numbers, each of them once. -/
  ascending : (m.snapshot.pages.map Prod.fst).Pairwise (· < ·)
  listed : ∀ number bytes, (number, bytes) ∈ m.snapshot.pages ↔
    m.pages[number]? = some bytes.toArray
  /-- The encoding is decoded to the same pages and the same tree. -/
  again : ∃ n, format.decode (format.encode m) = .ok n ∧ m.SamePages n ∧ n.tree = m.tree

theorem decodedFrom_of_decode (h : format.decode bytes = .ok m) : m.DecodedFrom bytes := by
  obtain ⟨s, hs, hread, hwell⟩ := exists_readFrom_of_decode h
  obtain ⟨n, hn, hpages, -⟩ := hwell.toFits.exists_decode_encode
  exact
    { layout_valid := hwell.toFits.validate_layout
      page_inside := fun number page hp =>
        ⟨hwell.size_page number page hp, hwell.page_inside number page hp⟩
      readFrom := ⟨s, hs, hread⟩
      root_eq := hwell.root_eq
      ascending := m.pairwise_snapshot
      listed := fun _ _ => mem_snapshot_pages
      again := ⟨n, hn, hpages, tree_eq_of_decode h hn hpages⟩ }

/-! ### What comes back -/

theorem SamePages.fits (h : m.SamePages n) (hn : n.Fits) : m.Fits where
  memoryBits_ge := h.memoryBits_eq ▸ hn.memoryBits_ge
  memoryBits_le := h.memoryBits_eq ▸ hn.memoryBits_le
  pageSize_mem := h.pageSize_eq ▸ hn.pageSize_mem
  size_page number page hp := by
    rw [← h.pageSize_eq]
    exact hn.size_page number page ((h.pages_eq number).trans hp)
  page_inside number page hp := by
    rw [← h.pageSize_eq, ← h.memoryBits_eq]
    exact hn.page_inside number page ((h.pages_eq number).trans hp)

/-- What comes back from the encoding of a memory is read from its snapshot. -/
theorem FullPages.decode_encode (h : m.FullPages) :
    format.decode (format.encode m) = ofSnapshot m.snapshot :=
  h.readsBack_snapshot.decode_encode_refine

/-- A layout out of range is refused. -/
theorem FullPages.decode_encode_of_invalid (h : m.FullPages) {cause : ParamsError}
    (hvalid : m.snapshot.layout.validate = .error cause) :
    format.decode (format.encode m) = .error (.memoryLayout cause) := by
  rw [h.decode_encode]
  unfold Snapshot.layout at hvalid
  simp only [ofSnapshot, hvalid]

/-- The memories with full pages that come back from their encoding are those that fit. -/
theorem FullPages.exists_decode_encode_iff (h : m.FullPages) :
    (∃ n, format.decode (format.encode m) = .ok n) ↔ m.Fits := by
  constructor
  · rintro ⟨n, hn⟩
    have hpages := samePages_of_ofSnapshot (h.decode_encode.symm.trans hn)
    exact hpages.fits (wellFormed_of_decode hn).toFits
  · intro hfits
    obtain ⟨n, hn, -⟩ := hfits.exists_decode_encode
    exact ⟨n, hn⟩

/-! ### Memories that were built -/

/-- A memory of zeros, or one that was built from regions or decoded, with stores inside the address
space behind. -/
inductive Built : Memory → Prop
  | empty (params : Params) : Built (empty params)
  | ofRegions (params : Params) (regions : List (UInt32 × Bytes)) : Built (ofRegions params regions)
  | decoded {bytes : Bytes} {m : Memory} (h : format.decode bytes = .ok m) : Built m
  | storeWord {m : Memory} {addr : UInt32} (h : Built m) (ha : m.IsWordAddr addr) (value : UInt32) :
      Built (m.storeWord addr value)

theorem Built.fullPages (h : m.Built) : m.FullPages := by
  induction h with
  | empty params => exact fullPages_empty params
  | ofRegions params regions => exact fullPages_ofRegions params regions
  | decoded h => exact (wellFormed_of_decode h).size_page
  | storeWord _ _ _ ih => exact ih.writePage _ _

/-- A store leaves every page in its place. -/
theorem Fits.of_storeWord {addr value : UInt32} (hfull : m.FullPages)
    (h : (m.storeWord addr value).Fits) : m.Fits where
  memoryBits_ge := h.memoryBits_ge
  memoryBits_le := h.memoryBits_le
  pageSize_mem := h.pageSize_mem
  size_page := hfull
  page_inside number page hp := by
    obtain ⟨page', hp'⟩ : ∃ page', (m.storeWord addr value).pages[number]? = some page' := by
      have hwritten := getElem?_pages_writePage m addr (Bytes.ofWord value) number
      split at hwritten
      · exact ⟨_, hwritten⟩
      · exact ⟨page, hwritten.trans hp⟩
    exact h.page_inside number page' hp'

/-- Built memories that fit are well formed. -/
theorem Built.wellFormed (h : m.Built) (hfits : m.Fits) : m.WellFormed := by
  induction h with
  | empty params =>
    -- Of the parameters only the layout enters the memory.
    exact (wellFormed_empty hfits.validate_layout :)
  | ofRegions params regions =>
    exact Fits.wellFormed_rebuild ⟨hfits.memoryBits_ge, hfits.memoryBits_le, hfits.pageSize_mem,
      hfits.size_page, hfits.page_inside⟩
  | decoded h => exact wellFormed_of_decode h
  | storeWord h ha value ih => exact (ih (hfits.of_storeWord h.fullPages)).storeWord ha value

/-- What comes back from the encoding of a built memory has its pages and its root. -/
theorem Built.decode_encode (h : m.Built) (hn : format.decode (format.encode m) = .ok n) :
    m.SamePages n ∧ n.root = m.root := by
  have hpages := samePages_of_ofSnapshot (h.fullPages.decode_encode.symm.trans hn)
  have hwell := h.wellFormed (h.fullPages.exists_decode_encode_iff.mp ⟨n, hn⟩)
  exact ⟨hpages, (hwell.alike (wellFormed_of_decode hn) hpages).root_eq.symm⟩

/-- Memories that do not come back from their encoding: one with a page size out of range, and one
with a region behind the address space. -/
theorem built_refused :
    (ofRegions { pageSize := 4 } [(0x1000, [1, 2, 3, 4])]).Built ∧
      format.decode (format.encode (ofRegions { pageSize := 4 } [(0x1000, [1, 2, 3, 4])])) =
        .error (.memoryLayout (.pageSize 4)) ∧
      (ofRegions { memoryBits := 14 } [(0x4000, [1])]).Built ∧
      ∀ n, format.decode (format.encode (ofRegions { memoryBits := 14 } [(0x4000, [1])])) ≠
        .ok n := by
  refine ⟨.ofRegions _ _, ?_, .ofRegions _ _, fun n hn => ?_⟩
  · refine (fullPages_ofRegions _ _).decode_encode_of_invalid ?_
    have hlayout := hasLayout_ofRegions { pageSize := 4 } [(0x1000, [1, 2, 3, 4])]
    rw [Snapshot.layout, snapshot, hlayout.pageSize_eq, hlayout.memoryBits_eq]
    decide
  · have hfull := fullPages_ofRegions { memoryBits := 14 } [(0x4000, [1])]
    have hfits := hfull.exists_decode_encode_iff.mp ⟨n, hn⟩
    have hpage : (ofRegions { memoryBits := 14 } [(0x4000, [1])]).pages[(16 : UInt32)]? = _ :=
      getElem?_pages_writePage (Memory.empty { memoryBits := 14 }) 0x4000 [1] 16
    rw [if_pos (by decide)] at hpage
    exact absurd (hfits.page_inside _ _ hpage) (by decide)

end Memory

end ReplayVM
