import Mathlib.Tactic.Common
import ReplayVM.Receipt.Succinct

/-!
# Round trips

A format reads a value back when it reads what it wrote, whatever comes behind. Most formats read
back every value; a counted list reads back only when its length fits the eight bytes of the count.
Compounds read back what their parts read back, so that the law of a record is the law of its
fields.

A value that is refined on the way in need not come back itself: `Format.ReadsAs` names the one that
is read for it.

## Main definitions

* `Format.ReadsAs`, `Format.ReadsBack`, `Format.Lawful`.

## Main results

* `Format.ReadsBack.decode_encode`: a value that is read back is decoded from its encoding.
* `SegmentSeal.readsBack`, `RecursionSeal.lawful`: the seals of receipts.
-/

namespace ReplayVM

namespace Format

variable {α β : Type} {f : Format α} {g : Format β}

/-- A byte string is decoded when a value is read of all of it. -/
theorem decode_eq_ok_iff_run {bytes : Bytes} {a : α} :
    f.decode bytes = .ok a ↔ f.read.run bytes = .ok (a, []) := by
  unfold decode
  constructor
  · intro h
    split at h
    · simp at h
    · rename_i b hread
      obtain rfl := Except.ok.inj h
      exact hread
    · simp at h
  · intro h
    rw [h]

/-- A value for which another one is read, whatever comes behind. -/
def ReadsAs (f : Format α) (a b : α) : Prop :=
  ∀ rest, f.read.run (f.write a ++ rest) = .ok (b, rest)

/-- A value that is read back from what was written for it, whatever comes behind. -/
def ReadsBack (f : Format α) (a : α) : Prop :=
  ∀ rest, f.read.run (f.write a ++ rest) = .ok (a, rest)

/-- A format that reads back every value. -/
def Lawful (f : Format α) : Prop := ∀ a, f.ReadsBack a

theorem ReadsBack.readsAs {a : α} (h : f.ReadsBack a) : f.ReadsAs a a := h

/-- What is read for a value is decoded from its encoding. -/
theorem ReadsAs.decode_encode {a b : α} (h : f.ReadsAs a b) : f.decode (f.encode a) = .ok b := by
  have hrun := h []
  rw [List.append_nil] at hrun
  exact decode_eq_ok_iff_run.mpr hrun

/-- A value that is read back is decoded from its encoding. -/
theorem ReadsBack.decode_encode {a : α} (h : f.ReadsBack a) : f.decode (f.encode a) = .ok a :=
  h.readsAs.decode_encode

/-! ### Numbers -/

theorem run_take {front : Bytes} {n : Nat} (h : front.length = n) (rest : Bytes) :
    (take n).run (front ++ rest) = .ok (front, rest) := by
  subst h
  simp [take, StateT.run]

theorem run_readLe {width n : Nat} (h : n < 1 <<< (8 * width)) (rest : Bytes) :
    (readLe width).run (Bytes.le width n ++ rest) = .ok (n, rest) := by
  rw [readLe, StateT.run_map, run_take (Bytes.length_le width n)]
  simp [Bytes.leValue_le h]

theorem uint8_lawful : uint8.Lawful := fun _ _ => rfl

theorem uint32_lawful : uint32.Lawful := by
  intro n rest
  have hlt : n.toNat < 1 <<< (8 * 4) := by simpa using n.toNat_lt
  change (Nat.toUInt32 <$> readLe 4).run (Bytes.le 4 n.toNat ++ rest) = _
  rw [StateT.run_map, run_readLe hlt]
  simp

theorem count_readsBack {n : Nat} (h : n < UInt64.size) : count.ReadsBack n := by
  intro rest
  exact run_readLe (by simpa using h) rest

/-! ### Compounds -/

theorem ReadsBack.bytes {bs : Bytes} (h : bs.length < UInt64.size) : bytes.ReadsBack bs := by
  intro rest
  simp only [Format.bytes, StateT.run_bind, List.append_assoc]
  rw [count_readsBack h]
  exact run_take rfl rest

theorem ReadsAs.pair {a a' : α} {b b' : β} (ha : f.ReadsAs a a') (hb : g.ReadsAs b b') :
    (f.pair g).ReadsAs (a, b) (a', b') := by
  intro rest
  simp only [Format.pair, StateT.run_bind, List.append_assoc]
  rw [ha]
  simp only [bind, Except.bind]
  rw [hb]
  rfl

theorem ReadsBack.pair {a : α} {b : β} (ha : f.ReadsBack a) (hb : g.ReadsBack b) :
    (f.pair g).ReadsBack (a, b) :=
  ha.readsAs.pair hb.readsAs

theorem ReadsBack.option {a : Option α} (h : ∀ b ∈ a, f.ReadsBack b) : (option f).ReadsBack a := by
  intro rest
  cases a with
  | none => rfl
  | some b =>
    change (do return some (← f.read) : Reader (Option α)).run (f.write b ++ rest) = _
    rw [StateT.run_bind, h b rfl]
    rfl

theorem run_readMany {as : List α} (h : ∀ a ∈ as, f.ReadsBack a) (done : Array α) (rest : Bytes) :
    (readMany f as.length done).run (as.flatMap f.write ++ rest) =
      .ok (done.toList ++ as, rest) := by
  induction as generalizing done with
  | nil => simp [readMany, StateT.run]
  | cons a as ih =>
    rw [List.flatMap_cons, List.append_assoc]
    change readMany f (as.length + 1) done _ = _
    rw [readMany, h a List.mem_cons_self]
    have := ih (fun b hb => h b (List.mem_cons_of_mem _ hb)) (done.push a)
    simpa [StateT.run] using this

theorem ReadsBack.list {as : List α} (hlen : as.length < UInt64.size)
    (h : ∀ a ∈ as, f.ReadsBack a) : (list f).ReadsBack as := by
  intro rest
  simp only [Format.list, StateT.run_bind, List.append_assoc]
  rw [count_readsBack hlen]
  exact run_readMany h #[] rest

theorem Lawful.vector (h : f.Lawful) (n : Nat) : (vector f n).Lawful := by
  induction n with
  | zero =>
    intro as rest
    obtain rfl : as = #v[] := by simp
    rfl
  | succ n ih =>
    intro as rest
    have hpush : as.pop.push as.back = as := Vector.push_pop_back as
    have hwrite : (Format.vector f (n + 1)).write as =
        (Format.vector f n).write as.pop ++ f.write as.back := by
      have hlist : as.toList = as.pop.toList ++ [as.back] := by
        conv_lhs => rw [← hpush, Vector.toList_push]
      simp only [Format.vector, hlist, List.flatMap_append, List.flatMap_singleton]
    rw [hwrite, List.append_assoc]
    change (do return (← readVector f n).push (← f.read) : Reader (Vector α (n + 1))).run _ = _
    rw [StateT.run_bind]
    have := ih as.pop (f.write as.back ++ rest)
    change (readVector f n).run _ = _ at this
    rw [this]
    change (do return as.pop.push (← f.read) : Reader (Vector α (n + 1))).run _ = _
    rw [StateT.run_bind, h as.back]
    exact congrArg (fun as => Except.ok (as, rest)) hpush

theorem ReadsAs.iso {decode : α → β} {encode : β → α} {a : α} {b c : β}
    (h : f.ReadsAs (encode b) a) (hc : decode a = c) : (f.iso decode encode).ReadsAs b c := by
  intro rest
  rw [Format.iso, StateT.run_map, h]
  simp [hc]

theorem ReadsBack.iso {decode : α → β} {encode : β → α} {b : β} (hb : decode (encode b) = b)
    (h : f.ReadsBack (encode b)) : (f.iso decode encode).ReadsBack b :=
  h.readsAs.iso hb

/-- A refined format reads for a value what it makes of the value that it wrote down. -/
theorem ReadsAs.refine {decode : α → Except CodecError β} {encode : β → α} {a : α} {b c : β}
    (h : f.ReadsAs (encode b) a) (hc : decode a = .ok c) :
    (f.refine decode encode).ReadsAs b c := by
  intro rest
  change (Format.refine f decode encode).read.run (f.write (encode b) ++ rest) = _
  rw [Format.refine, StateT.run_bind, h]
  simp only [bind, Except.bind, hc]
  rfl

/-- What a refined format decodes from its own encoding is what it makes of the value that it wrote
down. -/
theorem ReadsBack.decode_encode_refine {decode : α → Except CodecError β} {encode : β → α} {b : β}
    (h : f.ReadsBack (encode b)) :
    (f.refine decode encode).decode ((f.refine decode encode).encode b) = decode (encode b) := by
  have hread : (f.refine decode encode).read.run (f.write (encode b)) =
      (decode (encode b)).map fun b => (b, []) := by
    have hrun := h []
    rw [List.append_nil] at hrun
    rw [Format.refine, StateT.run_bind, hrun]
    cases hb : decode (encode b) <;> simp [bind, Except.bind, hb] <;> rfl
  rw [Format.decode, Format.encode, show (f.refine decode encode).write b = f.write (encode b)
    from rfl, hread]
  cases decode (encode b) <;> rfl

end Format

open Format

/-! ### Machine values -/

theorem Digest.lawful : Digest.format.Lawful :=
  fun d => .iso rfl (uint8_lawful.vector 32 d.bytes)

theorem Params.lawful : Params.format.Lawful :=
  fun _ => .iso rfl (.pair (uint32_lawful _) (.pair (uint32_lawful _) (.pair (uint32_lawful _)
    (.pair (uint32_lawful _) (uint32_lawful _)))))

theorem HostReply.lawful : HostReply.format.Lawful :=
  fun _ => .iso rfl (.pair (uint32_lawful _) (uint32_lawful _))

theorem SystemState.lawful : SystemState.format.Lawful :=
  fun _ => .iso rfl (.pair (uint32_lawful _) (.pair (uint32_lawful.vector 32 _)
    (.pair (Digest.lawful _) (.pair (uint32_lawful _) (Digest.lawful _)))))

/-! ### Witnesses and seals -/

theorem MerklePath.readsBack {path : MerklePath} (h : path.siblings.length < UInt64.size) :
    MerklePath.format.ReadsBack path :=
  .iso rfl (.list h fun d _ => Digest.lawful d)

theorem FetchWitness.readsBack {f : FetchWitness} (h : f.path.siblings.length < UInt64.size) :
    FetchWitness.format.ReadsBack f :=
  .iso rfl (.pair (uint32_lawful _) (.pair (uint32_lawful _) (MerklePath.readsBack h)))

theorem DataWitness.readsBack {d : DataWitness} (h : d.path.siblings.length < UInt64.size) :
    DataWitness.format.ReadsBack d :=
  .iso rfl (.pair (uint32_lawful _) (.pair (uint32_lawful _) (.pair (uint32_lawful _)
    (MerklePath.readsBack h))))

/-- A row whose paths are short enough for their counts. -/
def Row.HasShortPaths (r : Row) : Prop :=
  (∀ f ∈ r.fetch, f.path.siblings.length < UInt64.size) ∧
    ∀ d ∈ r.data, d.path.siblings.length < UInt64.size

theorem Row.readsBack {r : Row} (h : r.HasShortPaths) : Row.format.ReadsBack r :=
  .iso rfl (.pair (SystemState.lawful _)
    (.pair (.option fun f hf => FetchWitness.readsBack (h.1 f hf))
    (.pair (.option fun d hd => DataWitness.readsBack (h.2 d hd))
      (.option fun a _ => HostReply.lawful a))))

/-- A seal is read back when its rows and their paths are short enough for their counts. -/
theorem SegmentSeal.readsBack {s : SegmentSeal} (hlen : s.rows.length < UInt64.size)
    (h : ∀ row ∈ s.rows, row.HasShortPaths) : SegmentSeal.format.ReadsBack s :=
  .iso rfl (.pair (Params.lawful _) (.pair (Digest.lawful _)
    (.list hlen fun row hrow => Row.readsBack (h row hrow))))

theorem RecursionBackend.lawful : RecursionBackend.format.Lawful := by
  intro backend rest
  cases backend
  change (RecursionBackend.format.read).run (uint32.write 0 ++ rest) = _
  rw [RecursionBackend.format, StateT.run_bind, uint32_lawful]
  rfl

/-- The seals of succinct receipts are read back. -/
theorem RecursionSeal.lawful : RecursionSeal.format.Lawful :=
  fun _ => .iso rfl (.pair (RecursionBackend.lawful _) (.pair (Digest.lawful _)
    (.pair (Digest.lawful _) (.pair (Digest.lawful _) (Digest.lawful _)))))

end ReplayVM
