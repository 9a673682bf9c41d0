import ReplayVM.Proofs.SnapshotLaws

/-!
# Memory as a flat array

Pages, the tree over their words and the encoding of both serve one array of bytes over the whole
address space, zeros at first. Whatever a memory went through, regions written in bulk, stores and
round trips through its encoding, it holds the bytes that the same writes leave in the array: loads
give the words of the array and the root is that of the full tree over them. The array says nothing
of pages, of the order of independent writes or of how the tree came about, so neither does the
root.

## Main definitions

* `Memory.Represents`: a memory whose bytes are those of an array.
* `Memory.loadWord?`, `Memory.storeWord?`, `Memory.writeBytes?`: accesses that check their bounds.
* `Memory.History`: a memory built from regions, with the edits after it.
* `Memory.History.contents`: the array after the same writes.

## Main results

* `Memory.Represents.writePage`, `Memory.Represents.loadWord_eq`: writes and loads in both views.
* `Memory.Represents.root_eq`: the root in terms of the array.
* `Memory.History.refines_flat`: a history leaves a memory with the contents of its array.
-/

namespace ReplayVM

namespace Memory

/-! ### Bytes -/

/-- The byte at an address. -/
def byteAt (m : Memory) (addr : UInt32) : UInt8 :=
  (m.pageOf addr).getD (addr % m.pageSize).toNat 0

/-- A memory whose bytes are those of an array over the whole address space. -/
structure Represents (m : Memory) (flat : Page) : Prop where
  size_eq : flat.size = 1 <<< m.memoryBits.toNat
  byteAt_eq : ∀ addr : UInt32, addr.toNat < 1 <<< m.memoryBits.toNat →
    m.byteAt addr = flat.getD addr.toNat 0

variable {m n : Memory} {flat : Page} {addr value : UInt32} {bytes : Bytes}

/-- Numbers not far behind another one have the same quotient. -/
theorem div_eq_of_room {a b width size : Nat} (hroom : a % size + width ≤ size) (hle : a ≤ b)
    (hlt : b < a + width) : b / size = a / size := by
  have := Nat.div_add_mod a size
  refine Nat.div_eq_of_lt_le ?_ ?_
  · rw [Nat.mul_comm]
    omega
  · rw [Nat.succ_mul, Nat.mul_comm]
    omega

/-- A byte after a write inside a page is the written one where there is one. -/
theorem Fits.byteAt_writePage (h : m.Fits) {a : UInt32}
    (hroom : addr.toNat % m.pageSize.toNat + bytes.length ≤ m.pageSize.toNat) :
    (m.writePage addr bytes).byteAt a =
      if addr.toNat ≤ a.toNat ∧ a.toNat < addr.toNat + bytes.length then
        bytes.getD (a.toNat - addr.toNat) 0
      else m.byteAt a := by
  obtain ⟨-, hpos⟩ := h.pageSize_words
  have haddr := Nat.div_add_mod addr.toNat m.pageSize.toNat
  have ha := Nat.div_add_mod a.toNat m.pageSize.toNat
  have hlt := Nat.mod_lt a.toNat hpos
  rw [byteAt, pageOf_writePage, show (m.writePage addr bytes).pageSize = m.pageSize from rfl,
    UInt32.toNat_mod]
  by_cases hpage : addr / m.pageSize = a / m.pageSize
  · have hdiv : addr.toNat / m.pageSize.toNat = a.toNat / m.pageSize.toNat := by
      rw [← UInt32.toNat_div, ← UInt32.toNat_div, hpage]
    rw [hdiv] at haddr
    rw [if_pos hpage, Page.getD_write, h.size_pageOf, UInt32.toNat_mod]
    have hoffset : a.toNat % m.pageSize.toNat - addr.toNat % m.pageSize.toNat =
        a.toNat - addr.toNat := by omega
    by_cases hwritten : addr.toNat ≤ a.toNat ∧ a.toNat < addr.toNat + bytes.length
    · rw [if_pos hwritten, if_pos (by omega), hoffset]
    · rw [if_neg hwritten, if_neg (by omega), byteAt, UInt32.toNat_mod, pageOf, pageOf, hpage]
  · -- The written bytes all lie on the page of the first one.
    rw [if_neg hpage, if_neg, byteAt, UInt32.toNat_mod]
    rintro ⟨hle, hbehind⟩
    refine hpage (UInt32.toNat_inj.mp ?_)
    rw [UInt32.toNat_div, UInt32.toNat_div, div_eq_of_room hroom hle hbehind]

/-- A word at an aligned address lies on one page. -/
theorem Fits.room_of_aligned (h : m.Fits) (haligned : addr.toNat % 4 = 0) :
    addr.toNat % m.pageSize.toNat + 4 ≤ m.pageSize.toNat := by
  obtain ⟨hwords, hpos⟩ := h.pageSize_words
  have hmod : addr.toNat % m.pageSize.toNat % 4 = 0 := by
    rw [Nat.mod_mod_of_dvd _ (Nat.dvd_of_mod_eq_zero hwords), haligned]
  have hlt := Nat.mod_lt addr.toNat hpos
  omega

/-- The bytes behind an address on its page are those behind the offset of the page. -/
theorem byteAt_of_room {width k : Nat} {a : UInt32}
    (hroom : addr.toNat % m.pageSize.toNat + width ≤ m.pageSize.toNat) (hk : k < width)
    (ha : a.toNat = addr.toNat + k) :
    m.byteAt a = (m.pageOf addr).getD (addr.toNat % m.pageSize.toNat + k) 0 := by
  have hdiv : a.toNat / m.pageSize.toNat = addr.toNat / m.pageSize.toNat :=
    div_eq_of_room hroom (by omega) (by omega)
  have haddr := Nat.div_add_mod addr.toNat m.pageSize.toNat
  have hmod : a.toNat % m.pageSize.toNat = addr.toNat % m.pageSize.toNat + k := by
    have := Nat.div_add_mod a.toNat m.pageSize.toNat
    rw [hdiv] at this
    omega
  have hpage : a / m.pageSize = addr / m.pageSize := by
    refine UInt32.toNat_inj.mp ?_
    rw [UInt32.toNat_div, UInt32.toNat_div, hdiv]
  rw [byteAt, UInt32.toNat_mod, hmod, pageOf, pageOf, hpage]

namespace Represents

/-- The memory of zeros is an array of zeros. -/
theorem empty (params : Params) :
    (empty params).Represents (Page.zeros (1 <<< params.memoryBits.toNat)) where
  size_eq := Page.size_zeros _
  byteAt_eq addr _ := by
    have hpage : (Memory.empty params).pageOf addr = Page.zeros params.pageSize.toNat := by
      simp [pageOf, Memory.empty]
    rw [byteAt, hpage, Page.getD_zeros, Page.getD_zeros]

/-- A write inside a page is a write to the array. -/
theorem writePage (hr : m.Represents flat) (h : m.Fits)
    (hroom : addr.toNat % m.pageSize.toNat + bytes.length ≤ m.pageSize.toNat) :
    (m.writePage addr bytes).Represents (flat.write addr.toNat bytes) where
  size_eq := (Page.size_write _ _ _).trans hr.size_eq
  byteAt_eq a ha := by
    rw [h.byteAt_writePage hroom, Page.getD_write, hr.size_eq, hr.byteAt_eq a ha]
    have ha' : a.toNat < 1 <<< m.memoryBits.toNat := ha
    simp only [ha', and_true]

/-- Bytes written one by one are a write to the array. -/
theorem writeBytes (hr : m.Represents flat) (h : m.Fits)
    (hinside : addr.toNat + bytes.length ≤ 1 <<< m.memoryBits.toNat) :
    (m.writeBytes addr bytes).Represents (flat.write addr.toNat bytes) := by
  induction bytes generalizing m flat addr with
  | nil => exact hr
  | cons b bytes ih =>
    obtain ⟨-, hpos⟩ := h.pageSize_words
    rw [List.length_cons] at hinside
    have hnext : (addr + 1).toNat = addr.toNat + 1 := h.toNat_add_one (by omega)
    have hroom : addr.toNat % m.pageSize.toNat + [b].length ≤ m.pageSize.toNat :=
      Nat.mod_lt _ hpos
    have hinside' : (addr + 1).toNat + bytes.length ≤ 1 <<< m.memoryBits.toNat := by omega
    have hrest := ih (hr.writePage h hroom) (h.writePage (by omega) [b]) hinside'
    rw [hnext] at hrest
    exact hrest

/-- A store is a write of four bytes to the array. -/
theorem storeWord (hr : m.Represents flat) (h : m.Fits) (ha : m.IsWordAddr addr)
    (value : UInt32) :
    (m.storeWord addr value).Represents (flat.write addr.toNat (Bytes.ofWord value)) := by
  have hroom : addr.toNat % m.pageSize.toNat + (Bytes.ofWord value).length ≤ m.pageSize.toNat :=
    h.room_of_aligned ha.aligned
  have hwrite := hr.writePage h hroom
  exact ⟨hwrite.size_eq, hwrite.byteAt_eq⟩

/-- The word at an address is that of the array. -/
theorem loadWord_eq (hr : m.Represents flat) (h : m.Fits) (ha : m.IsWordAddr addr) :
    m.loadWord addr = flat.word addr.toNat := by
  have hbyte (k : Nat) (hk : k < 4) : (m.pageOf addr).getD (addr.toNat % m.pageSize.toNat + k) 0 =
      flat.getD (addr.toNat + k) 0 := by
    have haligned := ha.aligned
    have hinside := ha.inside
    have hspace := h.size_eq
    have hle : 1 <<< m.memoryBits.toNat ≤ 1073741824 := h.size_le
    have hnat : (addr.toNat + k).toUInt32.toNat = addr.toNat + k := by
      rw [UInt32.toNat_ofNat']
      omega
    rw [← byteAt_of_room (h.room_of_aligned haligned) hk hnat, hr.byteAt_eq _ (by omega), hnat]
  have h0 := hbyte 0 (by omega)
  rw [Nat.add_zero, Nat.add_zero] at h0
  rw [loadWord_eq_word, UInt32.toNat_mod, Page.word, Page.word, h0, hbyte 1 (by omega),
    hbyte 2 (by omega), hbyte 3 (by omega)]

/-- The words of the address space are those of the array. -/
theorem wordAt_eq (hr : m.Represents flat) (h : m.Fits) :
    m.wordAt = fun i => flat.word (4 * i) := by
  funext i
  rcases Nat.lt_or_ge i (1 <<< treeDepth m.memoryBits) with hi | hi
  · obtain ⟨ha, hindex⟩ := h.isWordAddr hi
    rw [wordAt_of_lt hi, hr.loadWord_eq h ha, ← ha.four_mul_wordIndex, hindex]
  · have hspace := h.size_eq
    have hsize := hr.size_eq
    have hbyte (k : Nat) : flat.getD (4 * i + k) 0 = 0 := by
      rw [Array.getD_eq_getD_getElem?, Array.getElem?_eq_none (by omega), Option.getD_none]
    have h0 := hbyte 0
    rw [Nat.add_zero] at h0
    rw [wordAt_of_le hi, Page.word, h0, hbyte, hbyte, hbyte]
    rfl

/-- The root is that of the full tree over the words of the array. -/
theorem root_eq (hr : m.Represents flat) (h : m.WellFormed) :
    m.root = Merkle.fullNode (fun i => flat.word (4 * i)) (treeDepth m.memoryBits) 0 := by
  rw [h.root_eq, hr.wordAt_eq h.toFits]

/-- Memories that represent one array have one root. -/
theorem root_unique (hr : m.Represents flat) (hr' : n.Represents flat) (h : m.WellFormed)
    (h' : n.WellFormed) : m.root = n.root := by
  have hsize := hr.size_eq.symm.trans hr'.size_eq
  rw [Nat.one_shiftLeft, Nat.one_shiftLeft] at hsize
  have hbits : m.memoryBits = n.memoryBits :=
    UInt32.toNat_inj.mp ((Nat.pow_right_inj Nat.one_lt_two).mp hsize)
  rw [hr.root_eq h, hr'.root_eq h', hbits]

/-- A memory with the same pages has the same bytes. -/
theorem samePages (hr : m.Represents flat) (h : m.SamePages n) : n.Represents flat where
  size_eq := h.memoryBits_eq.symm ▸ hr.size_eq
  byteAt_eq addr ha := by
    rw [h.memoryBits_eq] at ha
    rw [← hr.byteAt_eq addr ha, byteAt, byteAt, pageOf, pageOf, h.pages_eq, h.pageSize_eq]

end Represents

/-! ### Accesses that check their bounds -/

/-- The word at an address, unless it reaches behind its page. -/
def loadWord? (m : Memory) (addr : UInt32) : Option UInt32 :=
  match m.pages[addr / m.pageSize]? with
  | some page =>
    if (addr % m.pageSize).toNat + 4 ≤ page.size then some (page.word (addr % m.pageSize).toNat)
    else none
  | none => some 0

/-- Overwrites bytes of one page, unless they reach behind it. -/
def writePage? (m : Memory) (addr : UInt32) (bytes : Bytes) : Option Memory :=
  if (addr % m.pageSize).toNat + bytes.length ≤ (m.pageOf addr).size then
    some (m.writePage addr bytes)
  else none

/-- Overwrites a word, unless it reaches behind its page. -/
def storeWord? (m : Memory) (addr value : UInt32) : Option Memory :=
  (m.writePage? addr (Bytes.ofWord value)).map fun written =>
    { written with tree := m.tree.update (wordIndex addr) value }

/-- Overwrites bytes one by one, unless an address overflows or lies behind its page. -/
def writeBytes? (m : Memory) (addr : Nat) : Bytes → Option Memory
  | [] => some m
  | b :: bytes =>
    if addr < UInt32.size then
      (m.writePage? addr.toUInt32 [b]).bind fun m => m.writeBytes? (addr + 1) bytes
    else none

/-- Builds a memory from regions, unless a byte of them cannot be written. -/
def ofRegions? (params : Params) (regions : List (UInt32 × Bytes)) : Option Memory :=
  (regions.foldlM (fun (m : Memory) r => m.writeBytes? r.1.toNat r.2) (empty params)).map rebuild

namespace Fits

theorem writePage?_eq (h : m.Fits)
    (hroom : addr.toNat % m.pageSize.toNat + bytes.length ≤ m.pageSize.toNat) :
    m.writePage? addr bytes = some (m.writePage addr bytes) := by
  rw [writePage?, if_pos]
  rwa [h.size_pageOf, UInt32.toNat_mod]

/-- Loads of aligned words stay inside their page. -/
theorem loadWord?_eq (h : m.Fits) (haligned : addr.toNat % 4 = 0) :
    m.loadWord? addr = some (m.loadWord addr) := by
  rw [loadWord?, loadWord]
  cases hp : m.pages[addr / m.pageSize]? with
  | none => rfl
  | some page =>
    have hroom := h.room_of_aligned haligned
    rw [← UInt32.toNat_mod, ← h.size_page _ _ hp] at hroom
    exact if_pos hroom

/-- Stores of aligned words stay inside their page. -/
theorem storeWord?_eq (h : m.Fits) (haligned : addr.toNat % 4 = 0) :
    m.storeWord? addr value = some (m.storeWord addr value) := by
  rw [storeWord?, h.writePage?_eq (h.room_of_aligned haligned)]
  rfl

/-- The bytes of a region inside the address space can be written one by one. -/
theorem writeBytes?_eq (h : m.Fits)
    (hinside : addr.toNat + bytes.length ≤ 1 <<< m.memoryBits.toNat) :
    m.writeBytes? addr.toNat bytes = some (m.writeBytes addr bytes) := by
  induction bytes generalizing m addr with
  | nil => rfl
  | cons b bytes ih =>
    obtain ⟨-, hpos⟩ := h.pageSize_words
    rw [List.length_cons] at hinside
    have hnext : (addr + 1).toNat = addr.toNat + 1 := h.toNat_add_one (by omega)
    have hinside' : (addr + 1).toNat + bytes.length ≤ 1 <<< m.memoryBits.toNat := by omega
    have hfits : (m.writePage addr [b]).Fits := h.writePage (by omega) [b]
    have hrest := ih hfits hinside'
    rw [hnext] at hrest
    have hroom : addr.toNat % m.pageSize.toNat + [b].length ≤ m.pageSize.toNat :=
      Nat.mod_lt _ hpos
    have hfirst := h.writePage?_eq hroom
    rw [writeBytes?, if_pos (UInt32.toNat_lt_size addr), Nat.toUInt32_eq, UInt32.ofNat_toNat,
      hfirst, Option.bind_some, hrest]
    rfl

end Fits

/-- Regions inside the address space are writes to the array, and can be written byte by byte. -/
theorem Represents.foldl_writeBytes {params : Params} {regions : List (UInt32 × Bytes)}
    (hr : m.Represents flat) (h : m.Fits) (hl : m.HasLayout params)
    (hinside : ∀ r ∈ regions, r.1.toNat + r.2.length ≤ 1 <<< params.memoryBits.toNat) :
    regions.foldlM (fun (m : Memory) r => m.writeBytes? r.1.toNat r.2) m =
        some (regions.foldl (fun m (addr, bytes) => m.writeBytes addr bytes) m) ∧
      (regions.foldl (fun m (addr, bytes) => m.writeBytes addr bytes) m).Represents
        (regions.foldl (fun array r => array.write r.1.toNat r.2) flat) := by
  induction regions generalizing m flat with
  | nil => exact ⟨rfl, hr⟩
  | cons r regions ih =>
    have hfirst := hinside r List.mem_cons_self
    rw [← hl.memoryBits_eq] at hfirst
    rw [List.foldlM_cons, h.writeBytes?_eq hfirst]
    exact ih (hr.writeBytes h hfirst) (h.writeBytes hfirst) (hl.writeBytes _ _)
      fun r hr => hinside r (List.mem_cons_of_mem _ hr)

/-- A memory that is built from regions inside the address space is an array of zeros to which they
were written. -/
theorem Represents.ofRegions {params : Params} {regions : List (UInt32 × Bytes)}
    (h : params.validate = .ok ())
    (hinside : ∀ r ∈ regions, r.1.toNat + r.2.length ≤ 1 <<< params.memoryBits.toNat) :
    (ofRegions params regions).Represents
      (regions.foldl (fun array r => array.write r.1.toNat r.2)
        (Page.zeros (1 <<< params.memoryBits.toNat))) :=
  have hwrites := ((Represents.empty params).foldl_writeBytes (wellFormed_empty h).toFits
    ⟨rfl, rfl⟩ hinside).2
  ⟨hwrites.size_eq, hwrites.byteAt_eq⟩

/-- Regions inside the address space can be written byte by byte. -/
theorem ofRegions?_eq {params : Params} {regions : List (UInt32 × Bytes)}
    (h : params.validate = .ok ())
    (hinside : ∀ r ∈ regions, r.1.toNat + r.2.length ≤ 1 <<< params.memoryBits.toNat) :
    ofRegions? params regions = some (ofRegions params regions) := by
  rw [ofRegions?, ((Represents.empty params).foldl_writeBytes (wellFormed_empty h).toFits
    ⟨rfl, rfl⟩ hinside).1]
  rfl

/-! ### Histories -/

/-- What may happen to a memory that was built. -/
inductive Edit where
  /-- A word is stored. -/
  | store (addr value : UInt32)
  /-- The memory is encoded and decoded. -/
  | roundTrip

namespace Edit

/-- The memory after an edit. -/
def run (m : Memory) : Edit → Except CodecError Memory
  | .store addr value => .ok (m.storeWord addr value)
  | .roundTrip => format.decode (format.encode m)

/-- The memory after an edit, unless an access is out of bounds. -/
def run? (m : Memory) : Edit → Option Memory
  | .store addr value => m.storeWord? addr value
  | .roundTrip => (format.decode (format.encode m)).toOption

/-- The array after an edit. -/
def apply (array : Page) : Edit → Page
  | .store addr value => array.write addr.toNat (Bytes.ofWord value)
  | .roundTrip => array

/-- An edit of aligned words inside an address space. -/
def Inside (memoryBits : UInt32) : Edit → Prop
  | .store addr _ => addr.toNat % 4 = 0 ∧ addr.toNat < 1 <<< memoryBits.toNat
  | .roundTrip => True

instance (memoryBits : UInt32) : DecidablePred (Inside memoryBits)
  | .store addr _ => inferInstanceAs
    (Decidable (addr.toNat % 4 = 0 ∧ addr.toNat < 1 <<< memoryBits.toNat))
  | .roundTrip => .isTrue trivial

/-- An edit of a memory is an edit of the array, and accesses nothing out of bounds. -/
theorem exists_run {edit : Edit} (h : m.WellFormed) (hr : m.Represents flat)
    (hinside : edit.Inside m.memoryBits) :
    ∃ n, edit.run m = .ok n ∧ edit.run? m = some n ∧ n.WellFormed ∧
      n.memoryBits = m.memoryBits ∧ n.Represents (edit.apply flat) := by
  cases edit with
  | store addr value =>
    have ha : m.IsWordAddr addr := ⟨hinside.1, hinside.2⟩
    exact ⟨_, rfl, h.toFits.storeWord?_eq hinside.1, h.storeWord ha value, rfl,
      hr.storeWord h.toFits ha value⟩
  | roundTrip =>
    obtain ⟨n, hn, hpages, hwell⟩ := h.toFits.exists_decode_encode
    exact ⟨n, hn, by rw [run?, hn]; rfl, hwell, hpages.memoryBits_eq, hr.samePages hpages⟩

/-- Edits in a row are edits of the array. -/
theorem exists_foldlM_run {edits : List Edit} (h : m.WellFormed) (hr : m.Represents flat)
    (hinside : ∀ edit ∈ edits, edit.Inside m.memoryBits) :
    ∃ n, edits.foldlM run m = .ok n ∧ edits.foldlM run? m = some n ∧ n.WellFormed ∧
      n.memoryBits = m.memoryBits ∧ n.Represents (edits.foldl apply flat) := by
  induction edits generalizing m flat with
  | nil => exact ⟨m, rfl, rfl, h, rfl, hr⟩
  | cons edit edits ih =>
    obtain ⟨n, hn, hn?, hwell, hbits, hrep⟩ := exists_run h hr (hinside edit List.mem_cons_self)
    obtain ⟨k, hk, hk?, hkwell, hkbits, hkrep⟩ := ih hwell hrep fun e he =>
      hbits.symm ▸ hinside e (List.mem_cons_of_mem _ he)
    refine ⟨k, ?_, ?_, hkwell, hkbits.trans hbits, hkrep⟩
    · rw [List.foldlM_cons, hn]
      exact hk
    · rw [List.foldlM_cons, hn?]
      exact hk?

end Edit

/-- A memory that is built from regions under some parameters and then edited. -/
structure History where
  params : Params
  regions : List (UInt32 × Bytes)
  edits : List Edit

namespace History

/-- The memory at the end. -/
def run (h : History) : Except CodecError Memory :=
  h.edits.foldlM Edit.run (ofRegions h.params h.regions)

/-- The memory at the end, unless an access is out of bounds. -/
def run? (h : History) : Option Memory :=
  (ofRegions? h.params h.regions).bind fun m => h.edits.foldlM Edit.run? m

/-- The array at the end. -/
def contents (h : History) : Page :=
  h.edits.foldl Edit.apply (h.regions.foldl (fun array r => array.write r.1.toNat r.2)
    (Page.zeros (1 <<< h.params.memoryBits.toNat)))

/-- A history under parameters in range that stays inside the address space. -/
structure Proper (h : History) : Prop where
  params_valid : h.params.validate = .ok ()
  regions_inside : ∀ r ∈ h.regions, r.1.toNat + r.2.length ≤ 1 <<< h.params.memoryBits.toNat
  edits_inside : ∀ edit ∈ h.edits, edit.Inside h.params.memoryBits

/-- A history leaves a well-formed memory that represents its array, and accesses nothing out of
bounds. -/
theorem Proper.exists_run {h : History} (hp : h.Proper) :
    ∃ m, h.run = .ok m ∧ h.run? = some m ∧ m.WellFormed ∧
      m.memoryBits = h.params.memoryBits ∧ m.Represents h.contents := by
  have hbits := (hasLayout_ofRegions h.params h.regions).memoryBits_eq
  obtain ⟨m, hrun, hrun?, hwell, hbits', hm⟩ := Edit.exists_foldlM_run
    (wellFormed_ofRegions hp.params_valid hp.regions_inside)
    (.ofRegions hp.params_valid hp.regions_inside)
    fun e he => hbits.symm ▸ hp.edits_inside e he
  refine ⟨m, hrun, ?_, hwell, hbits'.trans hbits, hm⟩
  rw [run?, ofRegions?_eq hp.params_valid hp.regions_inside]
  exact hrun?

/-- **Memory as a flat array.** A memory that is built from regions and then edited by stores and
round trips holds what the same writes leave in an array of zeros over the address space: no access
is out of bounds, loads give the words of the array, and the root is that of the full tree over
them. So memories with the same contents have the same root, whatever their page sizes and
histories. -/
theorem refines_flat :
    (∀ h : History, h.Proper →
      ∃ m, h.run = .ok m ∧ h.run? = some m ∧ h.contents.size = 1 <<< h.params.memoryBits.toNat ∧
        (∀ addr : UInt32, addr.toNat % 4 = 0 → addr.toNat < 1 <<< h.params.memoryBits.toNat →
          m.loadWord addr = h.contents.word addr.toNat ∧
          m.loadWord? addr = some (h.contents.word addr.toNat)) ∧
        m.tree.levels.length = h.params.memoryBits.toNat - 2 + 1 ∧
        m.root = Merkle.fullNode (fun i => h.contents.word (4 * i))
          (h.params.memoryBits.toNat - 2) 0) ∧
    ∀ (h h' : History) (m m' : Memory), h.Proper → h'.Proper → h.run = .ok m → h'.run = .ok m' →
      h.contents = h'.contents → m.root = m'.root := by
  constructor
  · intro h hp
    obtain ⟨m, hrun, hrun?, hwell, hbits, hrep⟩ := hp.exists_run
    have hroot := hrep.root_eq hwell
    have hsize := hrep.size_eq
    have hlevels := hwell.tree.length_levels
    rw [hwell.treeDepth_eq, hbits] at hroot hlevels
    rw [hbits] at hsize
    refine ⟨m, hrun, hrun?, hsize, fun addr haligned hinside => ?_, hlevels, hroot⟩
    have hload := hrep.loadWord_eq hwell.toFits ⟨haligned, by rwa [hbits]⟩
    exact ⟨hload, hload ▸ hwell.toFits.loadWord?_eq haligned⟩
  · intro h h' m m' hp hp' hrun hrun' hcontents
    obtain ⟨n, hn, -, hwell, -, hrep⟩ := hp.exists_run
    obtain ⟨n', hn', -, hwell', -, hrep'⟩ := hp'.exists_run
    obtain rfl : m = n := Except.ok.inj (hrun.symm.trans hn)
    obtain rfl : m' = n' := Except.ok.inj (hrun'.symm.trans hn')
    rw [← hcontents] at hrep'
    exact hrep.root_unique hrep' hwell hwell'

/-- An edit at the end is an edit of the array so far. -/
theorem contents_concat (params : Params) (regions : List (UInt32 × Bytes)) (edits : List Edit)
    (edit : Edit) : contents ⟨params, regions, edits ++ [edit]⟩ =
      edit.apply (contents ⟨params, regions, edits⟩) := by
  simp only [contents, List.foldl_append, List.foldl_cons, List.foldl_nil]

/-- A word that is built last and a word that is stored first are the same to the array, whatever
the sizes of the pages. -/
theorem contents_built_eq_stored {params params' : Params}
    (hbits : params.memoryBits = params'.memoryBits) (regions : List (UInt32 × Bytes))
    (addr value : UInt32) (edits : List Edit) :
    contents ⟨params, regions ++ [(addr, Bytes.ofWord value)], edits⟩ =
      contents ⟨params', regions, .store addr value :: .roundTrip :: edits⟩ := by
  simp only [contents, List.foldl_append, List.foldl_cons, List.foldl_nil, Edit.apply, hbits]

/-- A history with small pages: two regions that overlap and cross a page, and a store. -/
def small : History where
  params := { memoryBits := 14, pageSize := 64 }
  regions := [(0x103d, [1, 2, 3, 4, 5, 6])] ++ [(0x1040, Bytes.ofWord 9)]
  edits := [] ++ [.store 0x2000 7]

/-- A history with large pages, of which more is stored and less built. -/
def large : History where
  params := { memoryBits := 14, pageSize := 4096 }
  regions := [(0x103d, [1, 2, 3, 4, 5, 6])]
  edits := .store 0x1040 9 :: .roundTrip :: ([] ++ [.store 0x2000 7])

theorem proper_small : small.Proper where
  params_valid := Params.validate_eq_ok_iff.mpr (by decide)
  regions_inside := by decide
  edits_inside := by decide

theorem proper_large : large.Proper where
  params_valid := Params.validate_eq_ok_iff.mpr (by decide)
  regions_inside := by decide
  edits_inside := by decide

theorem contents_small_eq_large : small.contents = large.contents :=
  contents_built_eq_stored rfl _ _ _ _

/-- Two histories that leave the same contents, and so the same root. -/
theorem refines_flat_small_large : small.Proper ∧ large.Proper ∧
    ∃ m n, small.run = .ok m ∧ large.run = .ok n ∧ m.loadWord 0x2000 = 7 ∧ m.root = n.root := by
  obtain ⟨hone, htwo⟩ := refines_flat
  obtain ⟨m, hm, -, hsize, hload, -⟩ := hone small proper_small
  obtain ⟨n, hn, -⟩ := hone large proper_large
  have hword := (hload 0x2000 (by decide) (by decide)).1
  rw [small, contents_concat, Edit.apply] at hsize hword
  rw [Page.size_write] at hsize
  rw [Page.word_write_self (by rw [hsize]; decide)] at hword
  exact ⟨proper_small, proper_large, m, n, hm, hn, hword,
    htwo small large m n proper_small proper_large hm hn contents_small_eq_large⟩

end History

end Memory

end ReplayVM
