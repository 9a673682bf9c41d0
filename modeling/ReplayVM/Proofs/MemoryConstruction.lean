import ReplayVM.Codec.Memory
import ReplayVM.Proofs.MemoryContents

/-!
# Building memories

A memory is built from regions of bytes or read from a snapshot. In both cases its pages are filled
first and its tree is built from them at the end. Pages that fit the layout determine the words of
the address space, so the tree that is built from them holds these words.

## Main results

* `Memory.Fits.wellFormed_rebuild`: building the tree makes a memory well formed.
* `Memory.wellFormed_empty`, `Memory.wellFormed_ofRegions`, `Memory.wellFormed_ofSnapshot`.
-/

namespace ReplayVM

/-- Valid parameters are those in their ranges. -/
theorem Params.validate_eq_ok_iff {p : Params} : p.validate = .ok () ↔
    (14 ≤ p.memoryBits.toNat ∧ p.memoryBits.toNat ≤ 30) ∧ p.pageSize ∈ pageSizes ∧
      1 ≤ p.maxSegmentPo2.toNat ∧ p.maxSegmentPo2.toNat ≤ 24 := by
  unfold validate
  simp only [UInt32.le_iff_toNat_le]
  change (if ¬(14 ≤ p.memoryBits.toNat ∧ p.memoryBits.toNat ≤ 30) then _ else
    if p.pageSize ∉ pageSizes then _ else
    if ¬(1 ≤ p.maxSegmentPo2.toNat ∧ p.maxSegmentPo2.toNat ≤ 24) then _ else _) = _ ↔ _
  constructor
  · intro h
    split_ifs at h with hbits hpage hpo2
    exact ⟨hbits, hpage, hpo2⟩
  · rintro ⟨hbits, hpage, hpo2⟩
    rw [if_neg (not_not.mpr hbits), if_neg (not_not.mpr hpage), if_neg (not_not.mpr hpo2)]

/-- Parameters with the layout of a snapshot. -/
def Snapshot.layout (s : Snapshot) : Params where
  pageSize := s.pageSize
  memoryBits := s.memoryBits

namespace Memory

/-! ### Words of pages -/

theorem mem_words {m : Memory} {index : Nat} {word : UInt32} :
    (index, word) ∈ m.words ↔ ∃ (number : UInt32) (page : Page) (i : Nat),
      m.pages[number]? = some page ∧ i < page.size / 4 ∧
        index = number.toNat * (m.pageSize.toNat / 4) + i ∧ word = page.word (4 * i) := by
  unfold words
  simp only [List.mem_flatMap, List.mem_map, Prod.exists, Prod.mk.injEq,
    Std.TreeMap.mem_toList_iff_getElem?_eq_some, List.mem_zipIdx_iff_getElem?]
  constructor
  · rintro ⟨number, page, hp, w, i, hi, rfl, rfl⟩
    simp only [Page.words, List.getElem?_map, Option.map_eq_some_iff] at hi
    obtain ⟨j, hj, rfl⟩ := hi
    obtain ⟨hlt, rfl⟩ := List.getElem?_eq_some_iff.mp hj
    simp only [List.length_range] at hlt
    exact ⟨number, page, i, hp, hlt, rfl, by simp⟩
  · rintro ⟨number, page, i, hp, hi, rfl, rfl⟩
    refine ⟨number, page, hp, page.word (4 * i), i, ?_, rfl, rfl⟩
    simp [Page.words, hi]

/-- A word of a page is the word of the address space at its place. -/
theorem Fits.wordAt_page {m : Memory} (h : m.Fits) {number : UInt32} {page : Page}
    (hp : m.pages[number]? = some page) {i : Nat} (hi : i < page.size / 4) :
    m.wordAt (number.toNat * (m.pageSize.toNat / 4) + i) = page.word (4 * i) := by
  obtain ⟨hwords, hpos⟩ := h.pageSize_words
  have hsize : page.size = m.pageSize.toNat := h.size_page _ _ hp
  have hinside := h.page_inside _ _ hp
  have hspace := h.size_eq
  have hle : 1 <<< m.memoryBits.toNat ≤ 1073741824 := h.size_le
  rw [hsize] at hi
  have haddr : 4 * (number.toNat * (m.pageSize.toNat / 4) + i) =
      number.toNat * m.pageSize.toNat + 4 * i := by
    rw [Nat.mul_add, ← Nat.mul_assoc, Nat.mul_comm 4, Nat.mul_assoc,
      Nat.mul_div_cancel' (Nat.dvd_of_mod_eq_zero hwords)]
  rw [Nat.add_mul, Nat.one_mul] at hinside
  have hnat : (4 * (number.toNat * (m.pageSize.toNat / 4) + i)).toUInt32.toNat =
      number.toNat * m.pageSize.toNat + 4 * i := by
    rw [UInt32.toNat_ofNat', haddr]
    omega
  have hnumber : (4 * (number.toNat * (m.pageSize.toNat / 4) + i)).toUInt32 / m.pageSize =
      number := by
    apply UInt32.toNat_inj.mp
    rw [UInt32.toNat_div, hnat, Nat.mul_comm, Nat.mul_add_div hpos, Nat.div_eq_of_lt (by omega),
      Nat.add_zero]
  have hoffset : ((4 * (number.toNat * (m.pageSize.toNat / 4) + i)).toUInt32 %
      m.pageSize).toNat = 4 * i := by
    rw [UInt32.toNat_mod, hnat, Nat.mul_comm, Nat.mul_add_mod, Nat.mod_eq_of_lt (by omega)]
  rw [wordAt_of_lt (by omega), loadWord, hnumber, hp, hoffset]

/-- Every word of the address space that is not zero is a word of a page. -/
theorem Fits.mem_words_wordAt {m : Memory} (h : m.Fits) {index : Nat} (hne : m.wordAt index ≠ 0) :
    (index, m.wordAt index) ∈ m.words := by
  have hlt : index < 1 <<< treeDepth m.memoryBits := by
    by_contra hge
    exact hne (wordAt_of_le (Nat.le_of_not_lt hge))
  obtain ⟨ha, hindex⟩ := h.isWordAddr hlt
  obtain ⟨hwords, hpos⟩ := h.pageSize_words
  have hfour := ha.four_mul_wordIndex
  rw [hindex] at hfour
  have hps : m.pageSize.toNat = 4 * (m.pageSize.toNat / 4) := by omega
  have hdiv : 4 * index / m.pageSize.toNat = index / (m.pageSize.toNat / 4) := by
    rw [hps, Nat.mul_div_mul_left _ _ (by omega), ← hps]
  have hmod : 4 * index % m.pageSize.toNat = 4 * (index % (m.pageSize.toNat / 4)) := by
    rw [hps, Nat.mul_mod_mul_left, ← hps]
  rw [wordAt_of_lt hlt, loadWord] at hne ⊢
  cases hp : m.pages[(4 * index).toUInt32 / m.pageSize]? with
  | none =>
    rw [hp] at hne
    exact absurd rfl hne
  | some page =>
    refine mem_words.mpr ⟨_, page, index % (m.pageSize.toNat / 4), hp, ?_, ?_, ?_⟩
    · rw [h.size_page _ _ hp]
      exact Nat.mod_lt _ (by omega)
    · rw [UInt32.toNat_div, ← hfour, hdiv, Nat.mul_comm, Nat.div_add_mod]
    · rw [UInt32.toNat_mod, ← hfour, hmod]

/-- Building the tree makes a memory well formed. -/
theorem Fits.wellFormed_rebuild {m : Memory} (h : m.Fits) : m.rebuild.WellFormed where
  memoryBits_ge := h.memoryBits_ge
  memoryBits_le := h.memoryBits_le
  pageSize_mem := h.pageSize_mem
  size_page := h.size_page
  page_inside := h.page_inside
  tree := by
    have hdescribed : MerkleLevel.described m.words = m.wordAt := by
      refine MerkleLevel.described_eq ?_ fun _ => h.mem_words_wordAt
      rintro ⟨index, word⟩ hw
      obtain ⟨number, page, i, hp, hi, rfl, rfl⟩ := mem_words.mp hw
      exact (h.wordAt_page hp hi).symm
    have htree := MerkleTree.holds_ofWords (treeDepth m.memoryBits) m.words
    rw [hdescribed] at htree
    exact htree

/-! ### Building memories -/

theorem wordAt_empty (params : Params) : (empty params).wordAt = fun _ => 0 := by
  funext index
  unfold wordAt
  split
  · simp [loadWord, empty]
  · rfl

theorem fullPages_empty (params : Params) : (empty params).FullPages :=
  fun number page hp => by simp [empty] at hp

/-- The memory of zeros is well formed. -/
theorem wellFormed_empty {params : Params} (h : params.validate = .ok ()) :
    (empty params).WellFormed := by
  obtain ⟨hbits, hpage, -⟩ := Params.validate_eq_ok_iff.mp h
  refine ⟨⟨hbits.1, hbits.2, hpage, fullPages_empty params, fun n p hp => ?_⟩, ?_⟩
  · simp [empty] at hp
  rw [wordAt_empty]
  exact MerkleTree.holds_empty _

/-- The address behind one inside the address space does not overflow. -/
theorem Fits.toNat_add_one {m : Memory} (h : m.Fits) {addr : UInt32}
    (hinside : addr.toNat < 1 <<< m.memoryBits.toNat) : (addr + 1).toNat = addr.toNat + 1 := by
  have hle : 1 <<< m.memoryBits.toNat ≤ 1073741824 := h.size_le
  exact toNat_add_one_of_lt (Nat.lt_of_le_of_lt (Nat.le_trans hinside hle) (by decide))

/-- Writing bytes inside the address space keeps pages full and inside it. -/
theorem Fits.writeBytes {m : Memory} (h : m.Fits) {addr : UInt32} {bytes : Bytes}
    (ha : addr.toNat + bytes.length ≤ 1 <<< m.memoryBits.toNat) :
    (m.writeBytes addr bytes).Fits := by
  induction bytes generalizing m addr with
  | nil => exact h
  | cons b bytes ih =>
    rw [List.length_cons] at ha
    refine ih (h.writePage (by omega) [b]) ?_
    change (addr + 1).toNat + bytes.length ≤ 1 <<< m.memoryBits.toNat
    rw [h.toNat_add_one (by omega)]
    omega

theorem HasLayout.writeBytes {m : Memory} {params : Params} (h : m.HasLayout params)
    (addr : UInt32) (bytes : Bytes) : (m.writeBytes addr bytes).HasLayout params := by
  induction bytes generalizing m addr with
  | nil => exact h
  | cons b bytes ih => exact ih (m := m.writePage addr [b]) ⟨h.pageSize_eq, h.memoryBits_eq⟩ _

/-- Writing bytes one by one keeps pages full, also behind the address space. -/
theorem FullPages.writeBytes {m : Memory} (h : m.FullPages) (addr : UInt32) (bytes : Bytes) :
    (m.writeBytes addr bytes).FullPages := by
  induction bytes generalizing m addr with
  | nil => exact h
  | cons b bytes ih => exact ih (h.writePage addr [b]) _

/-- Writing regions keeps the layout. -/
theorem HasLayout.foldl_writeBytes {m : Memory} {params : Params} (h : m.HasLayout params)
    (regions : List (UInt32 × Bytes)) :
    (regions.foldl (fun m (addr, bytes) => m.writeBytes addr bytes) m).HasLayout params := by
  induction regions generalizing m with
  | nil => exact h
  | cons r regions ih => exact ih (h.writeBytes r.1 r.2)

theorem FullPages.foldl_writeBytes {m : Memory} (h : m.FullPages)
    (regions : List (UInt32 × Bytes)) :
    (regions.foldl (fun m (addr, bytes) => m.writeBytes addr bytes) m).FullPages := by
  induction regions generalizing m with
  | nil => exact h
  | cons r regions ih => exact ih (h.writeBytes r.1 r.2)

/-- Writing regions inside the address space keeps pages full and inside it. -/
theorem Fits.foldl_writeBytes {m : Memory} {params : Params} (h : m.Fits) (hl : m.HasLayout params)
    {regions : List (UInt32 × Bytes)}
    (hinside : ∀ r ∈ regions, r.1.toNat + r.2.length ≤ 1 <<< params.memoryBits.toNat) :
    (regions.foldl (fun m (addr, bytes) => m.writeBytes addr bytes) m).Fits := by
  induction regions generalizing m with
  | nil => exact h
  | cons r regions ih =>
    have hr := hinside r List.mem_cons_self
    rw [← hl.memoryBits_eq] at hr
    exact ih (h.writeBytes hr) (hl.writeBytes _ _) fun r hr => hinside r (List.mem_cons_of_mem _ hr)

/-- A memory built from regions inside the address space is well formed. -/
theorem wellFormed_ofRegions {params : Params} {regions : List (UInt32 × Bytes)}
    (h : params.validate = .ok ())
    (hinside : ∀ r ∈ regions, r.1.toNat + r.2.length ≤ 1 <<< params.memoryBits.toNat) :
    (ofRegions params regions).WellFormed :=
  ((wellFormed_empty h).toFits.foldl_writeBytes ⟨rfl, rfl⟩ hinside).wellFormed_rebuild

theorem fullPages_ofRegions (params : Params) (regions : List (UInt32 × Bytes)) :
    (ofRegions params regions).FullPages :=
  (fullPages_empty params).foldl_writeBytes regions

theorem hasLayout_ofRegions (params : Params) (regions : List (UInt32 × Bytes)) :
    (ofRegions params regions).HasLayout params :=
  have h : (empty params).HasLayout params := ⟨rfl, rfl⟩
  ⟨(h.foldl_writeBytes regions).pageSize_eq, (h.foldl_writeBytes regions).memoryBits_eq⟩

/-- Adding pages that are accepted keeps pages full and inside the address space. -/
theorem Fits.addPages {m n : Memory} (h : m.Fits) {pages : List (UInt32 × Bytes)}
    (hn : m.addPages pages = .ok n) : n.Fits := by
  induction pages generalizing m with
  | nil =>
    rw [Memory.addPages, Except.ok.injEq] at hn
    exact hn ▸ h
  | cons p pages ih =>
    obtain ⟨number, bytes⟩ := p
    rw [Memory.addPages] at hn
    split at hn
    · simp at hn
    · rename_i hlen
      split at hn
      · simp at hn
      · rename_i hinside
        refine ih (m := { m with pages := m.pages.insert number bytes.toArray })
          ⟨h.memoryBits_ge, h.memoryBits_le, h.pageSize_mem, ?_, ?_⟩ hn
        all_goals
          intro k page hp
          simp only [Std.TreeMap.getElem?_insert, Std.LawfulEqOrd.compare_eq_iff_eq] at hp
          split at hp
        · rw [← Option.some.inj hp, List.size_toArray]
          exact not_not.mp hlen
        · exact h.size_page _ _ hp
        · rename_i hk
          rw [← hk]
          exact Nat.le_of_not_lt hinside
        · exact h.page_inside _ _ hp

/-- Adding pages keeps the layout. -/
theorem HasLayout.addPages {m n : Memory} {params : Params} (h : m.HasLayout params)
    {pages : List (UInt32 × Bytes)} (hn : m.addPages pages = .ok n) : n.HasLayout params := by
  induction pages generalizing m with
  | nil => exact Except.ok.inj hn ▸ h
  | cons p pages ih =>
    obtain ⟨number, bytes⟩ := p
    rw [Memory.addPages] at hn
    split_ifs at hn
    exact ih (m := { m with pages := m.pages.insert number bytes.toArray })
      ⟨h.pageSize_eq, h.memoryBits_eq⟩ hn

/-- A snapshot that is accepted has a layout in range, and its pages are added before the tree is
built. -/
theorem ofSnapshot_eq_ok_iff {s : Snapshot} {m : Memory} : ofSnapshot s = .ok m ↔
    s.layout.validate = .ok () ∧
      ∃ n, (empty s.layout).addPages s.pages = .ok n ∧ n.rebuild = m := by
  have hlayout : ({ pageSize := s.pageSize, memoryBits := s.memoryBits } : Params) = s.layout := rfl
  simp only [ofSnapshot, hlayout]
  cases hvalid : s.layout.validate with
  | error cause => simp
  | ok _ =>
    cases hpages : (empty s.layout).addPages s.pages with
    | error e => simp
    | ok n => simp

/-- A memory that was read from a snapshot is well formed. -/
theorem wellFormed_ofSnapshot {s : Snapshot} {m : Memory} (h : ofSnapshot s = .ok m) :
    m.WellFormed := by
  obtain ⟨hvalid, n, hn, rfl⟩ := ofSnapshot_eq_ok_iff.mp h
  exact ((wellFormed_empty hvalid).toFits.addPages hn).wellFormed_rebuild

end Memory

end ReplayVM
