import ReplayVM.Memory.Basic
import ReplayVM.Proofs.MerkleTrees

/-!
# The contents of memory

A memory is well formed when its layout is one that parameters may have, its pages are full and lie
inside the address space, and its tree holds the words of the address space. A store to an aligned
address changes the word there and no other word, and with it the tree, so stores keep a memory
well formed.

## Main definitions

* `Memory.wordAt`: the words of the address space by index.
* `Memory.Fits`, `Memory.WellFormed`: pages, and pages and tree, that fit each other.
* `Memory.HasLayout`: a memory laid out as parameters say.
* `Memory.IsWordAddr`: the addresses that loads and stores take.

## Main results

* `Memory.Fits.loadWord_storeWord`, `Memory.Fits.wordAt_storeWord`: what is there after a store.
* `Memory.WellFormed.storeWord`: stores keep a memory well formed.
-/

namespace ReplayVM

/-! ### Pages -/

namespace Page

@[simp] theorem size_zeros (size : Nat) : (zeros size).size = size := by simp [zeros]

@[simp] theorem size_write (page : Page) (offset : Nat) (bytes : Bytes) :
    (page.write offset bytes).size = page.size := by
  induction bytes generalizing page offset with
  | nil => rfl
  | cons b bytes ih => rw [write, ih, Array.size_setIfInBounds]

/-- A byte after a write is the written one where there is one. -/
theorem getD_write (page : Page) (offset : Nat) (bytes : Bytes) (i : Nat) :
    (page.write offset bytes).getD i 0 =
      if offset ≤ i ∧ i < offset + bytes.length ∧ i < page.size then bytes.getD (i - offset) 0
      else page.getD i 0 := by
  induction bytes generalizing page offset with
  | nil =>
    rw [write, if_neg]
    simp only [List.length_nil]
    omega
  | cons b bytes ih =>
    rw [write, ih, Array.size_setIfInBounds, List.length_cons]
    by_cases hi : offset = i
    · subst hi
      rw [if_neg (by omega)]
      by_cases hsize : offset < page.size
      · rw [if_pos (by omega)]
        simp [Array.getD_eq_getD_getElem?, hsize]
      · rw [if_neg (by omega)]
        simp [Array.getD_eq_getD_getElem?, hsize]
    · have hother : (page.setIfInBounds offset b).getD i 0 = page.getD i 0 := by
        simp [Array.getD_eq_getD_getElem?, Array.getElem?_setIfInBounds_ne hi]
      rw [hother]
      by_cases hlt : offset + 1 ≤ i ∧ i < offset + 1 + bytes.length ∧ i < page.size
      · rw [if_pos hlt, if_pos (by omega), show i - offset = i - (offset + 1) + 1 by omega,
          List.getD_cons_succ]
      · rw [if_neg hlt, if_neg (by omega)]

/-- A written word is read back. -/
theorem word_write_self {page : Page} {offset : Nat} (h : offset + 4 ≤ page.size) (w : UInt32) :
    (page.write offset (Bytes.ofWord w)).word offset = w := by
  have hbyte (k : Nat) (hk : k < 4) :
      (page.write offset (Bytes.ofWord w)).getD (offset + k) 0 = (Bytes.ofWord w).getD k 0 := by
    rw [getD_write, if_pos, Nat.add_sub_cancel_left]
    rw [Bytes.length_ofWord]
    omega
  have h0 := hbyte 0 (by omega)
  rw [Nat.add_zero] at h0
  rw [word, h0, hbyte 1 (by omega), hbyte 2 (by omega), hbyte 3 (by omega)]
  exact Bytes.toWord_ofWord w

/-- Writing a word leaves the words beside it. -/
theorem word_write_of_disjoint (page : Page) {offset i : Nat} (w : UInt32)
    (h : i + 4 ≤ offset ∨ offset + 4 ≤ i) :
    (page.write offset (Bytes.ofWord w)).word i = page.word i := by
  have hbyte (k : Nat) (hk : k < 4) :
      (page.write offset (Bytes.ofWord w)).getD (i + k) 0 = page.getD (i + k) 0 := by
    rw [getD_write, if_neg]
    rw [Bytes.length_ofWord]
    omega
  have h0 := hbyte 0 (by omega)
  rw [Nat.add_zero] at h0
  rw [word, word, h0, hbyte 1 (by omega), hbyte 2 (by omega), hbyte 3 (by omega)]

theorem getD_zeros (size i : Nat) : (zeros size).getD i 0 = 0 := by
  simp only [zeros, Array.getD_eq_getD_getElem?, Array.getElem?_replicate]
  split <;> rfl

theorem word_zeros (size i : Nat) : (zeros size).word i = 0 := by
  simp only [word, getD_zeros]
  rfl

end Page

namespace Memory

/-! ### Layouts -/

/-- The words of the address space, by index; zero behind it. -/
def wordAt (m : Memory) (index : Nat) : UInt32 :=
  if index < 1 <<< treeDepth m.memoryBits then m.loadWord (4 * index).toUInt32 else 0

theorem wordAt_of_lt {m : Memory} {index : Nat} (h : index < 1 <<< treeDepth m.memoryBits) :
    m.wordAt index = m.loadWord (4 * index).toUInt32 :=
  if_pos h

theorem wordAt_of_le {m : Memory} {index : Nat} (h : 1 <<< treeDepth m.memoryBits ≤ index) :
    m.wordAt index = 0 :=
  if_neg (Nat.not_lt_of_le h)

/-- A memory with a layout that parameters may have, and full pages inside the address space. -/
structure Fits (m : Memory) : Prop where
  memoryBits_ge : 14 ≤ m.memoryBits.toNat
  memoryBits_le : m.memoryBits.toNat ≤ 30
  pageSize_mem : m.pageSize ∈ Params.pageSizes
  size_page : ∀ (number : UInt32) (page : Page), m.pages[number]? = some page →
    page.size = m.pageSize.toNat
  page_inside : ∀ (number : UInt32) (page : Page), m.pages[number]? = some page →
    (number.toNat + 1) * m.pageSize.toNat ≤ 1 <<< m.memoryBits.toNat

/-- A memory whose tree holds its words. -/
structure WellFormed (m : Memory) : Prop extends m.Fits where
  tree : m.tree.Holds m.wordAt (treeDepth m.memoryBits)

/-- A memory that is laid out as parameters say. -/
structure HasLayout (m : Memory) (params : Params) : Prop where
  pageSize_eq : m.pageSize = params.pageSize
  memoryBits_eq : m.memoryBits = params.memoryBits

/-- An aligned address inside the address space. -/
structure IsWordAddr (m : Memory) (addr : UInt32) : Prop where
  aligned : addr.toNat % 4 = 0
  inside : addr.toNat < 1 <<< m.memoryBits.toNat

namespace Fits

variable {m : Memory}

theorem treeDepth_eq (h : m.Fits) : treeDepth m.memoryBits = m.memoryBits.toNat - 2 := by
  refine Memory.treeDepth_eq (UInt32.le_iff_toNat_le.mpr ?_)
  exact Nat.le_trans (by decide) h.memoryBits_ge

/-- The address space is a number of words. -/
theorem size_eq (h : m.Fits) : 1 <<< m.memoryBits.toNat = 4 * 1 <<< treeDepth m.memoryBits := by
  have := h.memoryBits_ge
  rw [h.treeDepth_eq, Nat.one_shiftLeft, Nat.one_shiftLeft,
    show m.memoryBits.toNat = m.memoryBits.toNat - 2 + 2 by omega, Nat.pow_add,
    Nat.add_sub_cancel]
  omega

theorem size_le (h : m.Fits) : 1 <<< m.memoryBits.toNat ≤ 1 <<< 30 := by
  rw [Nat.one_shiftLeft, Nat.one_shiftLeft]
  exact Nat.pow_le_pow_right (by omega) h.memoryBits_le

/-- A page is a number of words. -/
theorem pageSize_words (h : m.Fits) : m.pageSize.toNat % 4 = 0 ∧ 0 < m.pageSize.toNat := by
  have hmem := h.pageSize_mem
  simp only [Params.pageSizes, List.mem_cons, List.not_mem_nil, or_false] at hmem
  rcases hmem with hp | hp | hp | hp | hp | hp | hp <;> rw [hp] <;> decide

/-- The address space is a number of pages. -/
theorem pageSize_dvd (h : m.Fits) : m.pageSize.toNat ∣ 1 <<< m.memoryBits.toNat := by
  have hpage : m.pageSize.toNat ∣ 1 <<< 12 := by
    have hmem := h.pageSize_mem
    simp only [Params.pageSizes, List.mem_cons, List.not_mem_nil, or_false] at hmem
    rcases hmem with hp | hp | hp | hp | hp | hp | hp <;> rw [hp] <;> decide
  refine Nat.dvd_trans hpage ?_
  have := h.memoryBits_ge
  rw [Nat.one_shiftLeft, Nat.one_shiftLeft]
  exact Nat.pow_dvd_pow 2 (by omega)

/-- The page of an address inside the address space lies inside it. -/
theorem page_le (h : m.Fits) {addr : Nat} (ha : addr < 1 <<< m.memoryBits.toNat) :
    (addr / m.pageSize.toNat + 1) * m.pageSize.toNat ≤ 1 <<< m.memoryBits.toNat := by
  obtain ⟨count, hcount⟩ := h.pageSize_dvd
  rw [hcount] at ha ⊢
  rw [Nat.mul_comm m.pageSize.toNat count]
  exact Nat.mul_le_mul_right _ (Nat.div_lt_of_lt_mul ha)

end Fits

/-! ### Word addresses -/

theorem IsWordAddr.wordIndex_lt {m : Memory} {addr : UInt32} (hm : m.Fits) (h : m.IsWordAddr addr) :
    wordIndex addr < 1 <<< treeDepth m.memoryBits := by
  have := h.inside
  have := hm.size_eq
  unfold wordIndex
  omega

theorem IsWordAddr.four_mul_wordIndex {m : Memory} {addr : UInt32} (h : m.IsWordAddr addr) :
    4 * wordIndex addr = addr.toNat := by
  have := h.aligned
  unfold wordIndex
  omega

/-- The word at an address is the one at its index. -/
theorem IsWordAddr.wordAt_wordIndex {m : Memory} {addr : UInt32} (hm : m.Fits)
    (h : m.IsWordAddr addr) : m.wordAt (wordIndex addr) = m.loadWord addr := by
  rw [wordAt_of_lt (h.wordIndex_lt hm), h.four_mul_wordIndex]
  exact congrArg m.loadWord UInt32.ofNat_toNat

/-- The address of a word of the address space. -/
theorem Fits.isWordAddr {m : Memory} (hm : m.Fits) {index : Nat}
    (h : index < 1 <<< treeDepth m.memoryBits) :
    m.IsWordAddr (4 * index).toUInt32 ∧ wordIndex (4 * index).toUInt32 = index := by
  have hsize := hm.size_eq
  have hle : 1 <<< m.memoryBits.toNat ≤ 1073741824 := hm.size_le
  have hnat : (4 * index).toUInt32.toNat = 4 * index := by
    rw [UInt32.toNat_ofNat']
    omega
  refine ⟨⟨by omega, by omega⟩, ?_⟩
  unfold wordIndex
  omega

/-! ### Stores -/

/-- The page of an address, with zeros for a page that was never written. -/
def pageOf (m : Memory) (addr : UInt32) : Page :=
  m.pages[addr / m.pageSize]?.getD (Page.zeros m.pageSize.toNat)

theorem loadWord_eq_word (m : Memory) (addr : UInt32) :
    m.loadWord addr = (m.pageOf addr).word (addr % m.pageSize).toNat := by
  unfold loadWord pageOf
  cases m.pages[addr / m.pageSize]? with
  | none => rw [Option.getD_none, Page.word_zeros]
  | some page => rfl

theorem getElem?_pages_writePage (m : Memory) (addr : UInt32) (bytes : Bytes) (number : UInt32) :
    (m.writePage addr bytes).pages[number]? =
      if addr / m.pageSize = number then
        some ((m.pageOf addr).write (addr % m.pageSize).toNat bytes)
      else m.pages[number]? := by
  unfold writePage pageOf
  rw [Std.TreeMap.getElem?_alter]
  simp only [Std.LawfulEqOrd.compare_eq_iff_eq]

theorem pageOf_writePage (m : Memory) (addr addr' : UInt32) (bytes : Bytes) :
    (m.writePage addr bytes).pageOf addr' =
      if addr / m.pageSize = addr' / m.pageSize then
        (m.pageOf addr).write (addr % m.pageSize).toNat bytes
      else m.pageOf addr' := by
  rw [pageOf, show (m.writePage addr bytes).pageSize = m.pageSize from rfl,
    getElem?_pages_writePage]
  split
  · rfl
  · rfl

/-- A memory whose pages are as long as its layout says. -/
def FullPages (m : Memory) : Prop :=
  ∀ (number : UInt32) (page : Page), m.pages[number]? = some page → page.size = m.pageSize.toNat

theorem FullPages.size_pageOf {m : Memory} (h : m.FullPages) (addr : UInt32) :
    (m.pageOf addr).size = m.pageSize.toNat := by
  unfold pageOf
  cases hp : m.pages[addr / m.pageSize]? with
  | none => exact Page.size_zeros _
  | some page => exact h _ _ hp

/-- Writing inside a page keeps pages full. -/
theorem FullPages.writePage {m : Memory} (h : m.FullPages) (addr : UInt32) (bytes : Bytes) :
    (m.writePage addr bytes).FullPages := by
  intro number page hp
  rw [getElem?_pages_writePage] at hp
  split at hp
  · rw [← Option.some.inj hp, Page.size_write, h.size_pageOf]
    rfl
  · exact h _ _ hp

theorem Fits.size_pageOf {m : Memory} (h : m.Fits) (addr : UInt32) :
    (m.pageOf addr).size = m.pageSize.toNat :=
  FullPages.size_pageOf h.size_page addr

/-- Writing inside a page keeps pages full and inside the address space. -/
theorem Fits.writePage {m : Memory} (h : m.Fits) {addr : UInt32}
    (ha : addr.toNat < 1 <<< m.memoryBits.toNat) (bytes : Bytes) :
    (m.writePage addr bytes).Fits where
  memoryBits_ge := h.memoryBits_ge
  memoryBits_le := h.memoryBits_le
  pageSize_mem := h.pageSize_mem
  size_page := FullPages.writePage h.size_page addr bytes
  page_inside number page hp := by
    rw [getElem?_pages_writePage] at hp
    split at hp
    · rename_i hn
      rw [← hn, UInt32.toNat_div]
      exact h.page_le ha
    · exact h.page_inside _ _ hp

/-- What is loaded after a store. -/
theorem Fits.loadWord_storeWord {m : Memory} (h : m.Fits) {addr addr' : UInt32}
    (ha : m.IsWordAddr addr) (ha' : m.IsWordAddr addr') (value : UInt32) :
    (m.storeWord addr value).loadWord addr' = if addr' = addr then value else m.loadWord addr' := by
  have hstore : (m.storeWord addr value).loadWord addr' =
      (m.writePage addr (Bytes.ofWord value)).loadWord addr' := rfl
  obtain ⟨hwords, hpos⟩ := h.pageSize_words
  have halign := ha.aligned
  have halign' := ha'.aligned
  have hdiv : m.pageSize.toNat = 4 * (m.pageSize.toNat / 4) := by omega
  have hmod : addr.toNat % m.pageSize.toNat % 4 = 0 := by
    rw [hdiv, Nat.mod_mul_right_mod, halign]
  have hmod' : addr'.toNat % m.pageSize.toNat % 4 = 0 := by
    rw [hdiv, Nat.mod_mul_right_mod, halign']
  have hlt := Nat.mod_lt addr.toNat hpos
  have hlt' := Nat.mod_lt addr'.toNat hpos
  rw [hstore, loadWord_eq_word, pageOf_writePage,
    show (m.writePage addr (Bytes.ofWord value)).pageSize = m.pageSize from rfl]
  split
  · rename_i hpage
    have hpage' : addr.toNat / m.pageSize.toNat = addr'.toNat / m.pageSize.toNat := by
      rw [← UInt32.toNat_div, ← UInt32.toNat_div, hpage]
    rw [UInt32.toNat_mod, UInt32.toNat_mod]
    split
    · rename_i heq
      rw [heq, Page.word_write_self]
      rw [h.size_pageOf]
      omega
    · rename_i hne
      have hoff : addr.toNat % m.pageSize.toNat ≠ addr'.toNat % m.pageSize.toNat := by
        intro hoff
        apply hne
        apply UInt32.toNat_inj.mp
        rw [← Nat.div_add_mod addr'.toNat m.pageSize.toNat, ← hpage', ← hoff, Nat.div_add_mod]
      rw [Page.word_write_of_disjoint _ _ (by omega), loadWord_eq_word, UInt32.toNat_mod]
      congr 1
      rw [pageOf, pageOf, hpage]
  · rename_i hpage
    rw [if_neg, loadWord_eq_word]
    rintro rfl
    exact hpage rfl

/-- A store changes one word of the address space. -/
theorem Fits.wordAt_storeWord {m : Memory} (h : m.Fits) {addr : UInt32} (ha : m.IsWordAddr addr)
    (value : UInt32) :
    (m.storeWord addr value).wordAt = Merkle.withWord m.wordAt (wordIndex addr) value := by
  funext i
  rcases Nat.lt_or_ge i (1 <<< treeDepth m.memoryBits) with hi | hi
  · obtain ⟨hai, hindex⟩ := h.isWordAddr hi
    rw [wordAt_of_lt (m := m.storeWord addr value) hi, h.loadWord_storeWord ha hai]
    unfold Merkle.withWord
    by_cases heq : i = wordIndex addr
    · rw [if_pos heq, if_pos]
      rw [heq, ha.four_mul_wordIndex]
      exact UInt32.ofNat_toNat
    · rw [if_neg heq, if_neg, wordAt_of_lt hi]
      intro h4
      exact heq (h4 ▸ hindex.symm)
  · have hne : i ≠ wordIndex addr := by
      have := ha.wordIndex_lt h
      omega
    rw [wordAt_of_le (m := m.storeWord addr value) hi, Merkle.withWord_of_ne _ _ hne,
      wordAt_of_le hi]

theorem Fits.storeWord {m : Memory} (h : m.Fits) {addr : UInt32} (ha : m.IsWordAddr addr)
    (value : UInt32) : (m.storeWord addr value).Fits :=
  have hw := h.writePage ha.inside (Bytes.ofWord value)
  ⟨hw.memoryBits_ge, hw.memoryBits_le, hw.pageSize_mem, hw.size_page, hw.page_inside⟩

/-- Stores keep a memory well formed. -/
theorem WellFormed.storeWord {m : Memory} (h : m.WellFormed) {addr : UInt32}
    (ha : m.IsWordAddr addr) (value : UInt32) : (m.storeWord addr value).WellFormed where
  toFits := h.toFits.storeWord ha value
  tree := by
    rw [h.toFits.wordAt_storeWord ha]
    exact h.tree.update (wordIndex addr) value

theorem WellFormed.root_eq {m : Memory} (h : m.WellFormed) :
    m.root = Merkle.fullNode m.wordAt (treeDepth m.memoryBits) 0 :=
  h.tree.root_eq

theorem WellFormed.path_eq {m : Memory} (h : m.WellFormed) (addr : UInt32) :
    m.path addr = ⟨Merkle.fullPath m.wordAt (treeDepth m.memoryBits) 0 (wordIndex addr)⟩ :=
  h.tree.path_eq (wordIndex addr)

end Memory

end ReplayVM
