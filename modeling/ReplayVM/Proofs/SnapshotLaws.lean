import ReplayVM.Proofs.FormatLaws
import ReplayVM.Proofs.MemoryConstruction

/-!
# Snapshots of memories

A memory is encoded by its pages, and its tree is built again when it is read. Of several pages with
one number the last one counts. A memory lists each of its pages once, so that what is read from its
snapshot has the same layout and the same pages; and a memory with full pages inside the address
space passes every check of reading.

## Main definitions

* `Memory.SamePages`: memories with the same layout and the same pages.
* `Memory.ReadFrom`: what the pages of a snapshot say of the memory that is read from it.

## Main results

* `Snapshot.readsBack`: snapshots of few and short pages are read back.
* `Memory.readFrom_of_ofSnapshot`: reading follows the snapshot.
* `Memory.Fits.exists_ofSnapshot`: the snapshot of a memory describes it.
* `Memory.Fits.exists_readsAs`, `Memory.Fits.exists_decode_encode`: a memory is decoded from its
  encoding.
-/

namespace ReplayVM

open Format

/-- A snapshot is read back when its pages can be counted, and the bytes of each of them. -/
theorem Snapshot.readsBack {s : Snapshot} (hlen : s.pages.length < UInt64.size)
    (h : ∀ p ∈ s.pages, p.2.length < UInt64.size) : Snapshot.format.ReadsBack s :=
  .iso rfl (.pair (uint32_lawful _) (.pair (uint32_lawful _)
    (.list hlen fun p hp => .pair (uint32_lawful _) (.bytes (h p hp)))))

/-- In a list with distinct keys every pair is found by its key. -/
theorem lookup_eq_some_iff_mem {α β : Type} [BEq α] [LawfulBEq α] {l : List (α × β)}
    (h : (l.map Prod.fst).Nodup) {k : α} {b : β} : l.lookup k = some b ↔ (k, b) ∈ l := by
  rw [List.lookup_eq_some_iff]
  constructor
  · rintro ⟨front, back, rfl, -⟩
    exact List.mem_append_right _ List.mem_cons_self
  · intro hmem
    obtain ⟨front, back, rfl⟩ := List.append_of_mem hmem
    rw [List.map_append, List.nodup_append] at h
    refine ⟨front, back, rfl, fun p hp => ?_⟩
    simpa using (h.2.2 p.1 (List.mem_map_of_mem hp) k (by simp)).symm

namespace Memory

/-- A memory that has the layout and the pages of another one. -/
structure SamePages (m n : Memory) : Prop where
  pageSize_eq : n.pageSize = m.pageSize
  memoryBits_eq : n.memoryBits = m.memoryBits
  pages_eq : ∀ number : UInt32, n.pages[number]? = m.pages[number]?

/-! ### Reading snapshots -/

/-- Pages that fit the layout are accepted. -/
theorem exists_addPages {m : Memory} {pages : List (UInt32 × Bytes)}
    (h : ∀ p ∈ pages, p.2.length = m.pageSize.toNat ∧
      (p.1.toNat + 1) * m.pageSize.toNat ≤ 1 <<< m.memoryBits.toNat) :
    ∃ n, m.addPages pages = .ok n := by
  induction pages generalizing m with
  | nil => exact ⟨m, rfl⟩
  | cons p pages ih =>
    obtain ⟨number, bytes⟩ := p
    obtain ⟨hsize, hinside⟩ := h (number, bytes) List.mem_cons_self
    rw [addPages, if_neg (not_not.mpr hsize), if_neg (Nat.not_lt_of_le hinside)]
    exact ih (m := { m with pages := m.pages.insert number bytes.toArray })
      fun p hp => h p (List.mem_cons_of_mem _ hp)

/-- Pages are added above those with the same numbers. -/
theorem getElem?_addPages {m n : Memory} {pages : List (UInt32 × Bytes)}
    (h : m.addPages pages = .ok n) (number : UInt32) :
    n.pages[number]? = ((pages.reverse.lookup number).map List.toArray).or m.pages[number]? := by
  induction pages generalizing m with
  | nil =>
    obtain rfl := Except.ok.inj h
    rfl
  | cons p pages ih =>
    obtain ⟨first, bytes⟩ := p
    rw [addPages] at h
    split_ifs at h
    rw [ih h, List.reverse_cons, List.lookup_append, Option.map_or, Option.or_assoc]
    congr 1
    simp only [Std.TreeMap.getElem?_insert, Std.LawfulEqOrd.compare_eq_iff_eq, List.lookup_cons]
    by_cases hfirst : first = number
    · simp [hfirst]
    · have hother : (number == first) = false := beq_eq_false_iff_ne.mpr (Ne.symm hfirst)
      simp [hfirst, hother]

/-- How a memory that was read from a snapshot follows from it. -/
structure ReadFrom (m : Memory) (s : Snapshot) : Prop where
  pageSize_eq : m.pageSize = s.pageSize
  memoryBits_eq : m.memoryBits = s.memoryBits
  /-- Of two pages with one number the later counts. -/
  getElem?_eq : ∀ number : UInt32,
    m.pages[number]? = (s.pages.reverse.lookup number).map List.toArray
  tree_eq : m.tree = MerkleTree.ofWords (treeDepth m.memoryBits) m.words

theorem readFrom_of_ofSnapshot {m : Memory} {s : Snapshot} (h : ofSnapshot s = .ok m) :
    m.ReadFrom s := by
  obtain ⟨-, n, hn, rfl⟩ := ofSnapshot_eq_ok_iff.mp h
  have hempty : (empty s.layout).HasLayout s.layout := ⟨rfl, rfl⟩
  have hlayout := hempty.addPages hn
  refine ⟨hlayout.pageSize_eq, hlayout.memoryBits_eq, fun number => ?_, rfl⟩
  refine (getElem?_addPages hn number).trans ?_
  simp [empty]

/-! ### Listing pages -/

variable {m : Memory}

/-- The pages of a memory are listed by ascending numbers. -/
theorem pairwise_snapshot (m : Memory) : (m.snapshot.pages.map Prod.fst).Pairwise (· < ·) := by
  rw [snapshot, List.map_map]
  exact List.pairwise_map.mpr (m.pages.ordered_keys_toList.imp Std.compare_eq_lt.mp)

theorem mem_snapshot_pages {number : UInt32} {bytes : Bytes} :
    (number, bytes) ∈ m.snapshot.pages ↔ m.pages[number]? = some bytes.toArray := by
  simp only [snapshot, List.mem_map, Prod.exists, Prod.mk.injEq,
    Std.TreeMap.mem_toList_iff_getElem?_eq_some]
  constructor
  · rintro ⟨k, page, hpage, rfl, rfl⟩
    exact hpage
  · intro h
    exact ⟨number, bytes.toArray, h, rfl, rfl⟩

/-- Each page of a memory is found in its snapshot. -/
theorem lookup_snapshot (m : Memory) (number : UInt32) :
    (m.snapshot.pages.reverse.lookup number).map List.toArray = m.pages[number]? := by
  have hnodup : (m.snapshot.pages.reverse.map Prod.fst).Nodup := by
    rw [List.map_reverse]
    exact List.pairwise_reverse.mpr (m.pairwise_snapshot.imp fun h => (UInt32.ne_of_lt h).symm)
  have hfound (bytes : Bytes) : m.snapshot.pages.reverse.lookup number = some bytes ↔
      m.pages[number]? = some bytes.toArray := by
    rw [lookup_eq_some_iff_mem hnodup, List.mem_reverse, mem_snapshot_pages]
  cases hp : m.pages[number]? with
  | some page => rw [(hfound page.toList).mpr hp, Option.map_some]
  | none =>
    cases hl : m.snapshot.pages.reverse.lookup number with
    | none => rfl
    | some bytes => exact absurd ((hfound bytes).mp hl) (by simp [hp])

/-- A memory has fewer pages than there are addresses. -/
theorem length_pages_lt (m : Memory) : m.pages.toList.length < UInt64.size := by
  have hsize : m.pages.size ≤ UInt32.size :=
    size_le_of_keys_lt UInt32.toNat (fun _ _ => UInt32.toNat_inj.mp) fun _ _ =>
      UInt32.toNat_lt_size _
  rw [Std.TreeMap.length_toList]
  exact Nat.lt_of_le_of_lt hsize (by decide)

/-! ### Coming back -/

/-- A memory that is read from the snapshot of another one has its pages. -/
theorem samePages_of_ofSnapshot {n : Memory} (h : ofSnapshot m.snapshot = .ok n) :
    m.SamePages n := by
  have hn := readFrom_of_ofSnapshot h
  exact ⟨hn.pageSize_eq, hn.memoryBits_eq, fun number =>
    (hn.getElem?_eq number).trans (m.lookup_snapshot number)⟩

theorem Fits.validate_layout (h : m.Fits) : m.snapshot.layout.validate = .ok () :=
  Params.validate_eq_ok_iff.mpr
    ⟨⟨h.memoryBits_ge, h.memoryBits_le⟩, h.pageSize_mem, show 1 ≤ 20 ∧ 20 ≤ 24 by decide⟩

/-- The snapshot of a memory describes a memory with its pages. -/
theorem Fits.exists_ofSnapshot (h : m.Fits) :
    ∃ n, ofSnapshot m.snapshot = .ok n ∧ m.SamePages n := by
  obtain ⟨n, hn⟩ : ∃ n, (empty m.snapshot.layout).addPages m.snapshot.pages = .ok n := by
    refine exists_addPages fun p hp => ?_
    have hp' := mem_snapshot_pages.mp hp
    exact ⟨h.size_page _ _ hp', h.page_inside _ _ hp'⟩
  have hread := ofSnapshot_eq_ok_iff.mpr ⟨h.validate_layout, n, hn, rfl⟩
  exact ⟨_, hread, samePages_of_ofSnapshot hread⟩

/-- The snapshot of a memory with full pages is read back. -/
theorem FullPages.readsBack_snapshot (h : m.FullPages) :
    Snapshot.format.ReadsBack m.snapshot := by
  refine Snapshot.readsBack ?_ fun p hp => ?_
  · rw [snapshot, List.length_map]
    exact m.length_pages_lt
  · have hsize : p.2.length = m.pageSize.toNat := h _ _ (mem_snapshot_pages.mp hp)
    rw [hsize]
    exact Nat.lt_trans m.pageSize.toNat_lt (by decide)

/-- For a memory another one with its pages is read, with a tree of its own. -/
theorem Fits.exists_readsAs (h : m.Fits) :
    ∃ n, format.ReadsAs m n ∧ m.SamePages n ∧ n.WellFormed := by
  obtain ⟨n, hn, hpages⟩ := h.exists_ofSnapshot
  have hread := FullPages.readsBack_snapshot h.size_page
  exact ⟨n, hread.readsAs.refine hn, hpages, wellFormed_ofSnapshot hn⟩

/-- A memory is decoded from its encoding, with its pages and a tree of its own. -/
theorem Fits.exists_decode_encode (h : m.Fits) :
    ∃ n, format.decode (format.encode m) = .ok n ∧ m.SamePages n ∧ n.WellFormed := by
  obtain ⟨n, hread, hpages, hwell⟩ := h.exists_readsAs
  exact ⟨n, hread.decode_encode, hpages, hwell⟩

end Memory

end ReplayVM
