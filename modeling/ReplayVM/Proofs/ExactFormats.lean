import ReplayVM.Codec.Execution
import ReplayVM.Proofs.FormatLaws
import ReplayVM.Proofs.ProgramConstruction

/-!
# Exact formats

A format is exact when it reads back what it writes and reads nothing else: the bytes in front of
the rest are those that it writes for the value that it reads. An exact format is a bijection
between the values that fit it and the byte strings that it accepts. No value has a second
encoding, and no encoding is the beginning of another one. Values fit as long as the lists in them
are no longer than a count of eight bytes can say.

## Main definitions

* `Format.Exact`: a format that reads exactly what it writes.
* `Format.Canonical`: what this means for whole byte strings.

## Main results

* `Format.Exact.pair`, `Format.Exact.option`, `Format.Exact.list`, `Format.Exact.iso`: compounds of
  exact formats are exact.
* `Format.Exact.canonical`: exact formats are canonical.
* `Receipt.canonical_formats`: the formats of receipts and of everything in them are canonical.
-/

namespace ReplayVM

namespace Format

variable {α β : Type} {f : Format α} {g : Format β} {fits fits' : α → Prop} {fitsToo : β → Prop}
  {bytes rest : Bytes}

/-- A format that reads back the values that fit it, and reads nothing but what it writes for one of
them. -/
structure Exact (f : Format α) (fits : α → Prop) : Prop where
  readsBack : ∀ a, fits a → f.ReadsBack a
  eq_of_read : ∀ {bytes rest a}, f.read.run bytes = .ok (a, rest) →
    fits a ∧ bytes = f.write a ++ rest

/-- A format under which the values that fit and the accepted byte strings determine each other.
A value has one encoding, no accepted byte string begins another one, and an encoding that is cut
off or continued is refused. -/
structure Canonical (f : Format α) (fits : α → Prop) : Prop where
  decode_eq_ok_iff : ∀ bytes a, f.decode bytes = .ok a ↔ fits a ∧ bytes = f.encode a
  eq_of_prefix : ∀ bytes bytes' a a', f.decode bytes = .ok a → f.decode bytes' = .ok a' →
    bytes <+: bytes' → bytes = bytes'
  refuses : ∀ bytes a, fits a → bytes ≠ f.encode a →
    bytes <+: f.encode a ∨ f.encode a <+: bytes → ∃ e, f.decode bytes = .error e

theorem Exact.congr (h : f.Exact fits) (hfits : ∀ a, fits a ↔ fits' a) : f.Exact fits' where
  readsBack a ha := h.readsBack a ((hfits a).mpr ha)
  eq_of_read hread := (h.eq_of_read hread).imp_left (hfits _).mp

theorem Exact.decode_eq_ok_iff (h : f.Exact fits) {a : α} :
    f.decode bytes = .ok a ↔ fits a ∧ bytes = f.encode a := by
  constructor
  · intro hdecode
    have ha := h.eq_of_read (decode_eq_ok_iff_run.mp hdecode)
    rwa [List.append_nil] at ha
  · rintro ⟨ha, rfl⟩
    exact (h.readsBack a ha).decode_encode

/-- Values whose encodings begin with each other are equal. -/
theorem Exact.eq_of_prefix (h : f.Exact fits) {a b : α} (ha : fits a) (hb : fits b)
    (hbegins : f.encode a <+: f.encode b) : a = b := by
  obtain ⟨rest, hrest⟩ := hbegins
  have hread := h.readsBack a ha rest
  change f.write a ++ rest = f.write b at hrest
  have hwhole := h.readsBack b hb []
  rw [List.append_nil, ← hrest] at hwhole
  exact (Prod.mk.inj (Except.ok.inj (hread.symm.trans hwhole))).1

theorem Exact.canonical (h : f.Exact fits) : f.Canonical fits where
  decode_eq_ok_iff _ _ := h.decode_eq_ok_iff
  eq_of_prefix bytes bytes' a a' hb hb' hbegins := by
    obtain ⟨ha, rfl⟩ := h.decode_eq_ok_iff.mp hb
    obtain ⟨ha', rfl⟩ := h.decode_eq_ok_iff.mp hb'
    rw [h.eq_of_prefix ha ha' hbegins]
  refuses bytes a ha hne hbegins := by
    cases hdecode : f.decode bytes with
    | error e => exact ⟨e, rfl⟩
    | ok b =>
      -- Another value would have an encoding that begins, or is begun by, that of the first.
      obtain ⟨hb, rfl⟩ := h.decode_eq_ok_iff.mp hdecode
      rcases hbegins with hbegins | hbegins
      · exact absurd (congrArg f.encode (h.eq_of_prefix hb ha hbegins)) hne
      · exact absurd (congrArg f.encode (h.eq_of_prefix ha hb hbegins)).symm hne

/-! ### Numbers and texts -/

/-- Nothing is read where reading stops with an error. -/
theorem not_read_of_throw {e : CodecError} {a : α} :
    ¬(throw e : Reader α).run bytes = .ok (a, rest) := by
  simp [throw, throwThe, MonadExceptOf.throw, StateT.run, StateT.lift, bind, Except.bind]

theorem run_take_eq_ok {n : Nat} {front : Bytes} (h : (take n).run bytes = .ok (front, rest)) :
    front.length = n ∧ bytes = front ++ rest := by
  simp only [take, StateT.run] at h
  split at h
  · rename_i hlen
    obtain ⟨rfl, rfl⟩ := Prod.mk.inj (Except.ok.inj h)
    exact ⟨hlen, (List.take_append_drop n bytes).symm⟩
  · simp at h

theorem run_readLe_eq_ok {width n : Nat} (h : (readLe width).run bytes = .ok (n, rest)) :
    n < 1 <<< (8 * width) ∧ bytes = Bytes.le width n ++ rest := by
  rw [readLe, ← bind_pure_comp] at h
  obtain ⟨front, rest', hfront, h⟩ := read_of_bind h
  obtain ⟨rfl, rfl⟩ := Prod.mk.inj (Except.ok.inj h)
  obtain ⟨rfl, rfl⟩ := run_take_eq_ok hfront
  exact ⟨Bytes.leValue_lt front, by rw [Bytes.le_leValue]⟩

/-- A number that is kept in as many bytes as it needs. -/
theorem exact_number {width : Nat} {ofNat : Nat → α} {toNat : α → Nat}
    (hlt : ∀ a, toNat a < 1 <<< (8 * width)) (hof : ∀ a, ofNat (toNat a) = a)
    (hto : ∀ n, n < 1 <<< (8 * width) → toNat (ofNat n) = n) :
    Exact ⟨fun a => Bytes.le width (toNat a), ofNat <$> readLe width⟩ fun _ => True where
  readsBack a _ rest := by
    rw [StateT.run_map, run_readLe (hlt a)]
    exact congrArg (fun a => Except.ok (a, rest)) (hof a)
  eq_of_read {bytes rest a} h := by
    rw [← bind_pure_comp] at h
    obtain ⟨n, rest', hn, hpure⟩ := read_of_bind h
    obtain ⟨rfl, rfl⟩ := Prod.mk.inj (Except.ok.inj hpure)
    obtain ⟨hbound, rfl⟩ := run_readLe_eq_ok hn
    refine ⟨trivial, ?_⟩
    change _ = Bytes.le width (toNat (ofNat n)) ++ rest'
    rw [hto n hbound]

theorem uint8_exact : uint8.Exact fun _ => True where
  readsBack a _ := uint8_lawful a
  eq_of_read {bytes rest a} h := by
    cases bytes with
    | nil => simp [uint8, StateT.run] at h
    | cons b bytes =>
      obtain ⟨rfl, rfl⟩ := Prod.mk.inj (Except.ok.inj h)
      exact ⟨trivial, rfl⟩

theorem uint32_exact : uint32.Exact fun _ => True :=
  exact_number (fun n => by simpa using n.toNat_lt) (fun _ => UInt32.ofNat_toNat) fun n hn => by
    rw [Nat.toUInt32_eq, UInt32.toNat_ofNat']
    exact Nat.mod_eq_of_lt (by simpa using hn)

theorem uint64_exact : uint64.Exact fun _ => True :=
  exact_number (fun n => by simpa using n.toNat_lt) (fun _ => UInt64.ofNat_toNat) fun n hn => by
    rw [Nat.toUInt64_eq, UInt64.toNat_ofNat']
    exact Nat.mod_eq_of_lt (by simpa using hn)

theorem count_exact : count.Exact fun n => n < UInt64.size where
  readsBack _ := count_readsBack
  eq_of_read h := by
    obtain ⟨hlt, hbytes⟩ := run_readLe_eq_ok h
    exact ⟨by simpa using hlt, hbytes⟩

theorem bytes_exact : Format.bytes.Exact fun bs => bs.length < UInt64.size where
  readsBack _ h := .bytes h
  eq_of_read {bytes rest bs} h := by
    obtain ⟨n, rest', hcount, htake⟩ := read_of_bind h
    obtain ⟨hlt, rfl⟩ := count_exact.eq_of_read hcount
    obtain ⟨rfl, rfl⟩ := run_take_eq_ok htake
    refine ⟨hlt, ?_⟩
    simp only [Format.bytes, List.append_assoc]

/-! ### Compounds -/

namespace Exact

theorem pair (hf : f.Exact fits) (hg : g.Exact fitsToo) :
    (f.pair g).Exact fun p => fits p.1 ∧ fitsToo p.2 where
  readsBack _ h := .pair (hf.readsBack _ h.1) (hg.readsBack _ h.2)
  eq_of_read h := by
    obtain ⟨rest', ha, hb⟩ := read_of_pair h
    obtain ⟨hfits, rfl⟩ := hf.eq_of_read ha
    obtain ⟨hfits', rfl⟩ := hg.eq_of_read hb
    exact ⟨⟨hfits, hfits'⟩, (List.append_assoc _ _ _).symm⟩

theorem iso (hf : f.Exact fits) {decode : α → β} {encode : β → α}
    (hde : ∀ b, decode (encode b) = b) (hed : ∀ a, encode (decode a) = a) :
    (f.iso decode encode).Exact fun b => fits (encode b) where
  readsBack b h := .iso (hde b) (hf.readsBack _ h)
  eq_of_read h := by
    obtain ⟨a, ha, rfl⟩ := read_of_iso h
    rw [hed]
    obtain ⟨hfits, rfl⟩ := hf.eq_of_read ha
    exact ⟨hfits, congrArg (f.write · ++ _) (hed a).symm⟩

theorem option (hf : f.Exact fits) : (option f).Exact fun o => ∀ a ∈ o, fits a where
  readsBack _ h := .option fun a ha => hf.readsBack a (h a ha)
  eq_of_read {bytes rest o} h := by
    obtain ⟨tag, rest', htag, hvalue⟩ := read_of_bind h
    obtain ⟨-, rfl⟩ := uint8_exact.eq_of_read htag
    split at hvalue
    · obtain ⟨rfl, rfl⟩ := Prod.mk.inj (Except.ok.inj hvalue)
      exact ⟨by simp, rfl⟩
    · obtain ⟨a, rest'', ha, hpure⟩ := read_of_bind hvalue
      obtain ⟨rfl, rfl⟩ := Prod.mk.inj (Except.ok.inj hpure)
      obtain ⟨hfits, rfl⟩ := hf.eq_of_read ha
      exact ⟨fun b hb => Option.some.inj hb ▸ hfits, rfl⟩
    · exact absurd hvalue not_read_of_throw

theorem run_readMany_eq_ok (hf : f.Exact fits) {n : Nat} {done : Array α} {as : List α}
    (h : (readMany f n done).run bytes = .ok (as, rest)) :
    ∃ bs, as = done.toList ++ bs ∧ bs.length = n ∧ (∀ b ∈ bs, fits b) ∧
      bytes = bs.flatMap f.write ++ rest := by
  induction n generalizing done bytes with
  | zero =>
    obtain ⟨rfl, rfl⟩ := Prod.mk.inj (Except.ok.inj h)
    exact ⟨[], by simp, rfl, by simp, rfl⟩
  | succ n ih =>
    simp only [readMany, StateT.run] at h
    split at h
    · simp at h
    · rename_i a rest' ha
      obtain ⟨hfits, rfl⟩ := hf.eq_of_read ha
      obtain ⟨bs, rfl, hlen, hall, rfl⟩ := ih h
      refine ⟨a :: bs, by simp, by simp [hlen], ?_, by simp⟩
      rintro b (_ | ⟨_, hb⟩)
      · exact hfits
      · exact hall b hb

theorem list (hf : f.Exact fits) :
    (list f).Exact fun as => as.length < UInt64.size ∧ ∀ a ∈ as, fits a where
  readsBack _ h := .list h.1 fun a ha => hf.readsBack a (h.2 a ha)
  eq_of_read {bytes rest as} h := by
    obtain ⟨n, rest', hcount, hmany⟩ := read_of_bind h
    obtain ⟨hlt, rfl⟩ := count_exact.eq_of_read hcount
    obtain ⟨bs, rfl, rfl, hall, rfl⟩ := hf.run_readMany_eq_ok hmany
    refine ⟨⟨hlt, hall⟩, ?_⟩
    simp [Format.list]

theorem vector (hf : f.Exact fun _ => True) (n : Nat) : (vector f n).Exact fun _ => True where
  readsBack as _ := Lawful.vector (fun a => hf.readsBack a trivial) n as
  eq_of_read {bytes rest as} h := by
    refine ⟨trivial, ?_⟩
    induction n generalizing rest with
    | zero =>
      obtain ⟨rfl, rfl⟩ := Prod.mk.inj (Except.ok.inj h)
      rfl
    | succ n ih =>
      obtain ⟨front, rest', hfront, h⟩ := read_of_bind h
      obtain ⟨a, rest'', ha, h⟩ := read_of_bind h
      obtain ⟨rfl, rfl⟩ := Prod.mk.inj (Except.ok.inj h)
      obtain ⟨-, rfl⟩ := hf.eq_of_read ha
      rw [ih hfront]
      simp [Format.vector, Vector.toList_push]

end Exact

/-! ### Alternatives -/

/-- A value that is read back is handed on. -/
theorem ReadsBack.run_bind {a : α} (h : f.ReadsBack a) (next : α → Reader β) :
    (f.read >>= next).run (f.write a ++ rest) = (next a).run rest := by
  rw [StateT.run_bind, h]
  rfl

/-- What is read as a value over a single number. -/
theorem read_of_word {make : UInt32 → α} {a : α}
    (h : (do return make (← uint32.read) : Reader α).run bytes = .ok (a, rest)) :
    ∃ word, a = make word ∧ bytes = uint32.write word ++ rest := by
  obtain ⟨word, rest', hword, hpure⟩ := read_of_bind h
  obtain ⟨rfl, rfl⟩ := Prod.mk.inj (Except.ok.inj hpure)
  exact ⟨word, rfl, (uint32_exact.eq_of_read hword).2⟩

/-- What is read as a value over another one. -/
theorem Exact.read_of_map (hf : f.Exact fits) {make : α → β} {b : β}
    (h : (do return make (← f.read) : Reader β).run bytes = .ok (b, rest)) :
    ∃ a, b = make a ∧ fits a ∧ bytes = f.write a ++ rest := by
  obtain ⟨a, rest', ha, hpure⟩ := read_of_bind h
  obtain ⟨rfl, rfl⟩ := Prod.mk.inj (Except.ok.inj hpure)
  exact ⟨a, rfl, hf.eq_of_read ha⟩

end Format

open Format

theorem FaultReason.exact : FaultReason.format.Exact fun _ => True where
  readsBack reason _ rest := by
    cases reason <;> simp only [format, List.append_assoc, (uint32_lawful _).run_bind] <;> rfl
  eq_of_read {bytes rest reason} h := by
    refine ⟨trivial, ?_⟩
    obtain ⟨tag, rest', htag, hvalue⟩ := read_of_bind h
    obtain ⟨-, rfl⟩ := uint32_exact.eq_of_read htag
    split at hvalue
    case h_1 =>
      obtain ⟨pc, rest'', hpc, hword⟩ := read_of_bind hvalue
      obtain ⟨-, rfl⟩ := uint32_exact.eq_of_read hpc
      obtain ⟨word, rfl, rfl⟩ := read_of_word hword
      simp [format]
    case h_8 | h_9 =>
      obtain ⟨rfl, rfl⟩ := Prod.mk.inj (Except.ok.inj hvalue)
      rfl
    case h_10 =>
      exact absurd hvalue not_read_of_throw
    all_goals
      obtain ⟨argument, rfl, rfl⟩ := read_of_word hvalue
      simp [format]

theorem ExitCode.exact : ExitCode.format.Exact fun _ => True where
  readsBack exit _ rest := by
    cases exit <;> simp only [format, List.append_assoc, (uint32_lawful _).run_bind,
      (FaultReason.exact.readsBack _ trivial).run_bind] <;> rfl
  eq_of_read {bytes rest exit} h := by
    refine ⟨trivial, ?_⟩
    obtain ⟨tag, rest', htag, hvalue⟩ := read_of_bind h
    obtain ⟨-, rfl⟩ := uint32_exact.eq_of_read htag
    split at hvalue
    case h_1 | h_2 =>
      obtain ⟨code, rfl, -, rfl⟩ := uint32_exact.read_of_map hvalue
      simp [format]
    case h_3 =>
      obtain ⟨rfl, rfl⟩ := Prod.mk.inj (Except.ok.inj hvalue)
      rfl
    case h_4 =>
      obtain ⟨reason, rfl, -, rfl⟩ := FaultReason.exact.read_of_map hvalue
      simp [format]
    case h_5 =>
      exact absurd hvalue not_read_of_throw

theorem ProofSystem.exact : ProofSystem.format.Exact fun _ => True where
  readsBack system _ rest := by
    cases system
    simp only [format, (uint32_lawful _).run_bind]
    rfl
  eq_of_read {bytes rest system} h := by
    refine ⟨trivial, ?_⟩
    obtain ⟨tag, rest', htag, hvalue⟩ := read_of_bind h
    obtain ⟨-, rfl⟩ := uint32_exact.eq_of_read htag
    split at hvalue
    · obtain ⟨rfl, rfl⟩ := Prod.mk.inj (Except.ok.inj hvalue)
      rfl
    · exact absurd hvalue not_read_of_throw

theorem RecursionBackend.exact : RecursionBackend.format.Exact fun _ => True where
  readsBack backend _ := lawful backend
  eq_of_read {bytes rest backend} h := by
    refine ⟨trivial, ?_⟩
    obtain ⟨tag, rest', htag, hvalue⟩ := read_of_bind h
    obtain ⟨-, rfl⟩ := uint32_exact.eq_of_read htag
    split at hvalue
    · obtain ⟨rfl, rfl⟩ := Prod.mk.inj (Except.ok.inj hvalue)
      rfl
    · exact absurd hvalue not_read_of_throw

/-! ### Machine values -/

theorem Digest.exact : Digest.format.Exact fun _ => True :=
  (uint8_exact.vector 32).iso (fun _ => rfl) fun _ => rfl

theorem Params.exact : Params.format.Exact fun _ => True :=
  ((uint32_exact.pair (uint32_exact.pair (uint32_exact.pair (uint32_exact.pair
    uint32_exact)))).iso (fun _ => rfl) fun _ => rfl).congr (by simp)

theorem HostReply.exact : HostReply.format.Exact fun _ => True :=
  ((uint32_exact.pair uint32_exact).iso (fun _ => rfl) fun _ => rfl).congr (by simp)

theorem Cpu.exact : Cpu.format.Exact fun _ => True :=
  ((uint32_exact.pair (uint32_exact.vector 32)).iso (fun _ => rfl) fun _ => rfl).congr (by simp)

theorem Output.exact : Output.format.Exact fun _ => True :=
  ((uint32_exact.pair Digest.exact).iso (fun _ => rfl) fun _ => rfl).congr (by simp)

theorem SystemState.exact : SystemState.format.Exact fun _ => True :=
  ((uint32_exact.pair ((uint32_exact.vector 32).pair (Digest.exact.pair
    (uint32_exact.pair Digest.exact)))).iso (fun _ => rfl) fun _ => rfl).congr (by simp)

/-! ### Witnesses and seals -/

theorem MerklePath.exact :
    MerklePath.format.Exact fun path => path.siblings.length < UInt64.size :=
  (Digest.exact.list.iso (fun _ => rfl) fun _ => rfl).congr (by simp)

theorem FetchWitness.exact :
    FetchWitness.format.Exact fun f => f.path.siblings.length < UInt64.size :=
  ((uint32_exact.pair (uint32_exact.pair MerklePath.exact)).iso (fun _ => rfl)
    fun _ => rfl).congr (by simp)

theorem DataWitness.exact :
    DataWitness.format.Exact fun d => d.path.siblings.length < UInt64.size :=
  ((uint32_exact.pair (uint32_exact.pair (uint32_exact.pair MerklePath.exact))).iso (fun _ => rfl)
    fun _ => rfl).congr (by simp)

theorem Row.exact : Row.format.Exact Row.HasShortPaths :=
  ((SystemState.exact.pair (FetchWitness.exact.option.pair (DataWitness.exact.option.pair
    HostReply.exact.option))).iso (fun _ => rfl) fun _ => rfl).congr (by simp [Row.HasShortPaths])

/-- A seal whose rows and their paths are short enough for their counts. -/
def SegmentSeal.Countable (s : SegmentSeal) : Prop :=
  s.rows.length < UInt64.size ∧ ∀ row ∈ s.rows, row.HasShortPaths

theorem SegmentSeal.exact : SegmentSeal.format.Exact SegmentSeal.Countable :=
  ((Params.exact.pair (Digest.exact.pair Row.exact.list)).iso (fun _ => rfl)
    fun _ => rfl).congr (by simp [SegmentSeal.Countable])

theorem RecursionSeal.exact : RecursionSeal.format.Exact fun _ => True :=
  ((RecursionBackend.exact.pair (Digest.exact.pair (Digest.exact.pair (Digest.exact.pair
    Digest.exact)))).iso (fun _ => rfl) fun _ => rfl).congr (by simp)

/-! ### Claims and receipts -/

theorem SegmentClaim.exact : SegmentClaim.format.Exact fun _ => True :=
  ((Digest.exact.pair (uint32_exact.pair (Digest.exact.pair (Digest.exact.pair (uint32_exact.pair
    (ExitCode.exact.pair Digest.exact)))))).iso (fun _ => rfl) fun _ => rfl).congr (by simp)

theorem ExitSummary.exact : ExitSummary.format.Exact fun _ => True :=
  ((ExitCode.exact.pair Digest.exact).iso (fun _ => rfl) fun _ => rfl).congr (by simp)

theorem SuccinctClaim.exact : SuccinctClaim.format.Exact fun _ => True :=
  ((Digest.exact.pair (Digest.exact.pair (Digest.exact.pair ExitSummary.exact))).iso (fun _ => rfl)
    fun _ => rfl).congr (by simp)

theorem SegmentSpan.exact : SegmentSpan.format.Exact fun _ => True :=
  ((uint32_exact.pair (uint32_exact.pair uint64_exact)).iso (fun _ => rfl)
    fun _ => rfl).congr (by simp)

/-- A receipt whose seal is short enough for its count. -/
def SegmentReceipt.Countable (r : SegmentReceipt) : Prop := r.sealBytes.length < UInt64.size

theorem SegmentReceipt.exact : SegmentReceipt.format.Exact SegmentReceipt.Countable :=
  ((SegmentClaim.exact.pair (bytes_exact.pair ProofSystem.exact)).iso (fun _ => rfl)
    fun _ => rfl).congr (by simp [SegmentReceipt.Countable])

/-- A receipt whose seal is short enough for its count. -/
def SuccinctReceipt.Countable (r : SuccinctReceipt) : Prop := r.sealBytes.length < UInt64.size

theorem SuccinctReceipt.exact : SuccinctReceipt.format.Exact SuccinctReceipt.Countable :=
  ((SuccinctClaim.exact.pair (bytes_exact.pair (uint32_exact.pair (Digest.exact.pair
    SegmentSpan.exact)))).iso (fun _ => rfl) fun _ => rfl).congr
      (by simp [SuccinctReceipt.Countable])

/-- A receipt of either kind whose seal is short enough for its count. -/
def Receipt.Countable : Receipt → Prop
  | .segment r => r.Countable
  | .succinct r => r.Countable

theorem Receipt.exact : Receipt.format.Exact Receipt.Countable where
  readsBack receipt h rest := by
    cases receipt with
    | segment r =>
      simp only [format, List.append_assoc, (uint32_lawful _).run_bind,
        (SegmentReceipt.exact.readsBack r h).run_bind]
      rfl
    | succinct r =>
      simp only [format, List.append_assoc, (uint32_lawful _).run_bind,
        (SuccinctReceipt.exact.readsBack r h).run_bind]
      rfl
  eq_of_read {bytes rest receipt} h := by
    obtain ⟨tag, rest', htag, hvalue⟩ := read_of_bind h
    obtain ⟨-, rfl⟩ := uint32_exact.eq_of_read htag
    split at hvalue
    · obtain ⟨r, rfl, hfits, rfl⟩ := SegmentReceipt.exact.read_of_map hvalue
      exact ⟨hfits, by simp [format]⟩
    · obtain ⟨r, rfl, hfits, rfl⟩ := SuccinctReceipt.exact.read_of_map hvalue
      exact ⟨hfits, by simp [format]⟩
    · exact absurd hvalue not_read_of_throw

/-- A summary whose journal is short enough for its count. -/
def SessionInfo.Countable (i : SessionInfo) : Prop := i.journal.length < UInt64.size

theorem SessionInfo.exact : SessionInfo.format.Exact SessionInfo.Countable :=
  ((ExitCode.exact.pair (Digest.exact.pair (bytes_exact.pair (uint32_exact.pair
    uint64_exact)))).iso (fun _ => rfl) fun _ => rfl).congr (by simp [SessionInfo.Countable])

/-! ### Receipts and everything in them -/

/-- Encoding is a bijection from the values of a type to the byte strings that are accepted for it,
for every type that holds no memory: a byte string decodes to a value if and only if it is the
encoding of the value. So no value has a second encoding, no accepted byte string is the beginning
of another one, and encodings that are cut off or continued are refused. The lists in a value have
to be short enough for a count of eight bytes, which all lists in a machine are. -/
theorem Receipt.canonical_formats :
    Digest.format.Canonical (fun _ => True) ∧
    Params.format.Canonical (fun _ => True) ∧
    ExitCode.format.Canonical (fun _ => True) ∧
    SystemState.format.Canonical (fun _ => True) ∧
    HostReply.format.Canonical (fun _ => True) ∧
    SegmentClaim.format.Canonical (fun _ => True) ∧
    Row.format.Canonical Row.HasShortPaths ∧
    SegmentSeal.format.Canonical SegmentSeal.Countable ∧
    SegmentReceipt.format.Canonical SegmentReceipt.Countable ∧
    SuccinctClaim.format.Canonical (fun _ => True) ∧
    SegmentSpan.format.Canonical (fun _ => True) ∧
    RecursionSeal.format.Canonical (fun _ => True) ∧
    SuccinctReceipt.format.Canonical SuccinctReceipt.Countable ∧
    Receipt.format.Canonical Receipt.Countable ∧
    SessionInfo.format.Canonical SessionInfo.Countable :=
  ⟨Digest.exact.canonical, Params.exact.canonical, ExitCode.exact.canonical,
    SystemState.exact.canonical, HostReply.exact.canonical, SegmentClaim.exact.canonical,
    Row.exact.canonical, SegmentSeal.exact.canonical, SegmentReceipt.exact.canonical,
    SuccinctClaim.exact.canonical, SegmentSpan.exact.canonical, RecursionSeal.exact.canonical,
    SuccinctReceipt.exact.canonical, Receipt.exact.canonical, SessionInfo.exact.canonical⟩

end ReplayVM
