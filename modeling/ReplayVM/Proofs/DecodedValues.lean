import ReplayVM.Codec.Execution
import ReplayVM.Proofs.DecodedMemories
import ReplayVM.Proofs.ExactFormats
import ReplayVM.Proofs.ProvingSimulation
import ReplayVM.Proofs.ProvingSoundness
import ReplayVM.Proofs.SessionSoundness

/-!
# Programs, paused machines and segments that were decoded

What carries a memory is decoded with another one, which has the same pages and is alike. Nothing
else changes on the way through a byte string. So a decoded program and a decoded paused machine
have the sessions of the original, and a decoded segment has its receipt.

## Main definitions

* `Program.ComesBack`, `Continuation.ComesBack`, `Segment.ComesBack`: what is decoded from an
  encoding does what the original does.

## Main results

* `Program.readsAs`, `Continuation.readsAs`, `Segment.readsAs`: only the memory is another one.
* `Session.Related.encodings_eq`: sessions over memories that are alike are equal byte for byte.
* `Memory.encodings_faithful`: values that carry memory come back from their encodings.
-/

namespace ReplayVM

open Format

/-! ### Texts -/

theorem Bytes.fromUTF8?_ofString (s : String) :
    String.fromUTF8? ⟨(Bytes.ofString s).toArray⟩ = some s := by
  have hbytes : (⟨(Bytes.ofString s).toArray⟩ : ByteArray) = s.toByteArray := by
    simp [Bytes.ofString]
  rw [hbytes, String.fromUTF8?, dif_pos s.isValidUTF8]
  rfl

/-- A text is read back when its bytes can be counted. -/
theorem Format.ReadsBack.text {s : String} (h : (Bytes.ofString s).length < UInt64.size) :
    text.ReadsBack s := by
  intro rest
  refine ((ReadsBack.bytes h).run_bind _).trans ?_
  rw [Bytes.fromUTF8?_ofString]
  rfl

/-! ### Values that carry memory -/

/-- The record of a file whose text and parts can be counted. -/
def ProgramInfo.Countable (i : ProgramInfo) : Prop :=
  (Bytes.ofString i.fileHash).length < UInt64.size ∧ i.parts.length < UInt64.size

theorem LoadedPart.lawful : LoadedPart.format.Lawful :=
  fun _ => .iso rfl (.pair (uint32_lawful _) (.pair (uint32_lawful _) (.pair (uint32_lawful _)
    (uint32_lawful _))))

theorem ProgramInfo.readsBack {i : ProgramInfo} (h : i.Countable) :
    ProgramInfo.format.ReadsBack i :=
  .iso rfl (.pair (.text h.1) (.pair (.list h.2 fun p _ => LoadedPart.lawful p)
    (uint64_exact.readsBack _ trivial)))

section

variable {m : Memory}

/-- For a program the same one over another memory is read. -/
theorem Program.readsAs {p : Program} (h : p.info.Countable)
    (hm : Memory.format.ReadsAs p.memory m) :
    Program.format.ReadsAs p { p with memory := m } :=
  .iso (.pair hm (.pair (uint32_lawful _) (.pair (Params.lawful _) (.pair (Digest.lawful _)
    (.pair (Digest.lawful _) (ProgramInfo.readsBack h)))))) rfl

/-- For a paused machine the same one over another memory is read. -/
theorem Continuation.readsAs {c : Continuation} (h : c.journal.length < UInt64.size)
    (hm : Memory.format.ReadsAs c.memory m) :
    Continuation.format.ReadsAs c { c with memory := m } :=
  .iso (.pair (Params.lawful _) (.pair (Cpu.exact.readsBack _ trivial) (.pair hm
    (.pair (Output.exact.readsBack _ trivial) (.pair (ReadsBack.bytes h) (uint32_lawful _)))))) rfl

/-- A segment over another snapshot of memory. -/
def Segment.withMemory (s : Segment) (m : Memory) : Segment :=
  { s with trace := { s.trace with startMemory := m } }

/-- For a segment the same one over another snapshot is read. -/
theorem Segment.readsAs {s : Segment} (h : s.trace.hostReplies.length < UInt64.size)
    (hm : Memory.format.ReadsAs s.trace.startMemory m) :
    Segment.format.ReadsAs s (s.withMemory m) := by
  have hreplies : (list HostReply.format).ReadsBack s.trace.hostReplies :=
    .list h fun a _ => HostReply.lawful a
  have htrace : Trace.format.ReadsAs s.trace { s.trace with startMemory := m } :=
    .iso (.pair (Cpu.exact.readsBack _ trivial) (.pair hm
      (.pair (Output.exact.readsBack _ trivial) hreplies))) rfl
  exact .iso (.pair (uint32_lawful _) (.pair (Digest.lawful _) (.pair (Digest.lawful _)
    (.pair (uint32_lawful _) (.pair (ExitCode.exact.readsBack _ trivial) (.pair (Digest.lawful _)
      (.pair (Params.lawful _) (.pair (Digest.lawful _) htrace)))))))) rfl

end

/-! ### One encoding -/

section

variable {s t : Segment} {c d : Continuation} {x y : Session}

/-- Segments over snapshots that are alike have one encoding. -/
theorem Segment.Related.encode_eq (h : s.Related Memory.Alike t) :
    Segment.format.encode s = Segment.format.encode t := by
  have hsnapshot := h.trace.startMemory.snapshot_eq
  have htrace : Trace.format.write s.trace = Trace.format.write t.trace := by
    simp only [Trace.format, Memory.format, Format.iso, Format.pair, Format.refine,
      h.trace.startCpu_eq, hsnapshot, h.trace.startOutput_eq, h.trace.hostReplies_eq]
  simp only [Format.encode, Segment.format, Format.iso, Format.pair, h.index_eq,
    h.startCommitment_eq, h.endCommitment_eq, h.instructionCount_eq, h.exitCode_eq,
    h.outputDigest_eq, h.params_eq, h.configDigest_eq, htrace]

/-- Paused machines over memories that are alike have one encoding. -/
theorem Continuation.Related.encode_eq (h : c.Related Memory.Alike d) :
    Continuation.format.encode c = Continuation.format.encode d := by
  simp only [Format.encode, Continuation.format, Memory.format, Format.iso, Format.pair,
    Format.refine, h.params_eq, h.cpu_eq, h.memory.snapshot_eq, h.output_eq, h.journal_eq,
    h.nextSegmentIndex_eq]

/-- Sessions over memories that are alike have the same segments, summaries and paused machines,
byte for byte. -/
theorem Session.Related.encodings_eq (h : x.Related Memory.Alike y) :
    x.segments.map Segment.format.encode = y.segments.map Segment.format.encode ∧
      x.info = y.info ∧
      x.continuation.map Continuation.format.encode =
        y.continuation.map Continuation.format.encode := by
  have hsegments {l l' : List Segment} (h : l.Forall₂ (Segment.Related Memory.Alike) l') :
      l.map Segment.format.encode = l'.map Segment.format.encode := by
    induction h with
    | nil => rfl
    | cons hst _ ih => rw [List.map_cons, List.map_cons, hst.encode_eq, ih]
  have hpaused {o o' : Option Continuation}
      (h : Option.Rel (Continuation.Related Memory.Alike) o o') :
      o.map Continuation.format.encode = o'.map Continuation.format.encode := by
    cases h with
    | none => rfl
    | some hcd => exact congrArg some hcd.encode_eq
  exact ⟨hsegments h.segments, h.info_eq, hpaused h.continuation⟩

end

/-! ### What comes back -/

/-- A program that comes back from its encoding over a memory that is alike, and then has the same
sessions. -/
def Program.ComesBack (p : Program) : Prop :=
  ∃ m, p.memory.Alike m ∧
    Program.format.decode (Program.format.encode p) = .ok { p with memory := m } ∧
    ∀ input options, AgreesUpTo (Session.Related Memory.Alike) (p.execute input options)
      (execute { p with memory := m } input options)

/-- A paused machine that comes back from its encoding over a memory that is alike, and then has the
same sessions. -/
def Continuation.ComesBack (c : Continuation) : Prop :=
  ∃ m, c.memory.Alike m ∧
    Continuation.format.decode (Continuation.format.encode c) = .ok { c with memory := m } ∧
    ∀ input options, AgreesUpTo (Session.Related Memory.Alike) (c.resume input options)
      (resume { c with memory := m } input options)

/-- A segment that comes back from its encoding over a snapshot that is alike, and then has the same
receipt: with all the space there is, and under every budget if the nodes that are stored are those
above words that are not zero. -/
def Segment.ComesBack (s : Segment) : Prop :=
  ∃ m, s.trace.startMemory.Alike m ∧
    Segment.format.decode (Segment.format.encode s) = .ok (s.withMemory m) ∧
    (s.withMemory m).proveFully = s.proveFully ∧
    (s.trace.startMemory.ApartFromZeros →
      ∀ budget cancelled, (s.withMemory m).prove budget cancelled = s.prove budget cancelled)

theorem Program.comesBack {p : Program} (hm : p.memory.WellFormed) (h : p.info.Countable) :
    p.ComesBack := by
  obtain ⟨m, hread, hpages, hwell⟩ := hm.toFits.exists_readsAs
  have halike := hm.alike hwell hpages
  exact ⟨m, halike, (readsAs h hread).decode_encode,
    execute_related Memory.Alike.simulation rfl rfl halike⟩

theorem Continuation.comesBack {c : Continuation} (hm : c.memory.WellFormed)
    (h : c.journal.length < UInt64.size) : c.ComesBack := by
  obtain ⟨m, hread, hpages, hwell⟩ := hm.toFits.exists_readsAs
  have halike := hm.alike hwell hpages
  exact ⟨m, halike, (readsAs h hread).decode_encode,
    resume_related Memory.Alike.simulation ⟨rfl, rfl, halike, rfl, rfl, rfl⟩⟩

theorem Segment.related_withMemory {s : Segment} {m : Memory} (h : s.trace.startMemory.Alike m) :
    s.Related Memory.Alike (s.withMemory m) :=
  ⟨rfl, rfl, rfl, rfl, rfl, rfl, rfl, rfl, ⟨rfl, h, rfl, rfl⟩⟩

theorem Segment.comesBack {s : Segment} (hm : s.trace.startMemory.WellFormed)
    (h : s.trace.hostReplies.length < 1 <<< 60) : s.ComesBack := by
  obtain ⟨m, hread, hpages, hwell⟩ := hm.toFits.exists_readsAs
  have halike := hm.alike hwell hpages
  have hrelated := related_withMemory halike
  refine ⟨m, halike, (readsAs (Nat.lt_trans h (by decide)) hread).decode_encode, ?_,
    fun hfree budget cancelled => ?_⟩
  · refine (prove_eq_of_related Memory.Alike.simulation hrelated (fun hvalid => .inr ?_) _).symm
    exact ⟨.of_exists (exists_witnessEstimate hm hvalid h),
      .of_exists (exists_witnessEstimate (s := s.withMemory m) hwell hvalid h)⟩
  · refine (prove_eq_of_related Memory.Alike.simulation hrelated (fun _ => .inl ?_) _).symm
    have hspace : s.trace.startMemory.residentBytes = m.residentBytes :=
      Memory.residentBytes_eq hm hwell hpages hfree
    simp only [witnessEstimate, Trace.residentBytes, withMemory, hspace]

namespace Memory

/-- **Encodings of values that carry memory.** A memory that was built comes back from its encoding
exactly if it fits, and then with its pages and its root. A byte string is decoded to a memory with
a layout in range and full pages inside the address space, of which the last one listed counts; its
root is that of the full tree over its words, and its encoding lists each page once and is decoded
to the same pages and the same tree. Programs, paused machines and segments over well-formed
memories, with lists that can be counted, come back over memories that are alike, with the same
sessions and the same receipts. -/
theorem encodings_faithful :
    (∀ m : Memory, m.Built →
      ((∃ n, format.decode (format.encode m) = .ok n) ↔ m.Fits) ∧ (m.Fits → m.WellFormed) ∧
      ∀ n, format.decode (format.encode m) = .ok n → m.SamePages n ∧ n.root = m.root) ∧
    (∀ (bytes : Bytes) (m : Memory), format.decode bytes = .ok m →
      m.WellFormed ∧ m.DecodedFrom bytes) ∧
    (∀ p : Program, p.memory.WellFormed → p.info.Countable → p.ComesBack) ∧
    (∀ c : Continuation, c.memory.WellFormed → c.journal.length < UInt64.size → c.ComesBack) ∧
    ∀ s : Segment, s.trace.startMemory.WellFormed → s.trace.hostReplies.length < 1 <<< 60 →
      s.ComesBack := by
  refine ⟨fun m hm => ⟨hm.fullPages.exists_decode_encode_iff, hm.wellFormed, ?_⟩,
    fun bytes m h => ⟨wellFormed_of_decode h, decodedFrom_of_decode h⟩, ?_, ?_, ?_⟩
  · exact fun n hn => hm.decode_encode hn
  · exact fun p => Program.comesBack
  · exact fun c => Continuation.comesBack
  · exact fun s => Segment.comesBack

end Memory

/-! ### A guest that comes back -/

namespace HaltingGuest

/-- The guest, paused before its last instruction. -/
def paused : Continuation where
  params := params
  cpu := loaded.cpu
  memory := memory
  output := loaded.output
  journal := []
  nextSegmentIndex := 1

theorem built_memory : memory.Built :=
  .storeWord (.storeWord (.empty params) (isWordAddr rfl rfl (by decide)) _)
    (isWordAddr rfl rfl (by decide)) _

/-- What is hashed in the tree over zeros. -/
theorem mem_messages_of_zeros {x : Bytes} (h : Merkle.TreeMessage (fun _ => 0) 12 x) :
    x ∈ messages := by
  obtain ⟨height, index, hheight, -, rfl⟩ := h
  cases height with
  | zero => exact mem_messages_of_word (by simp)
  | succ k =>
    rw [messages, List.mem_append, List.mem_append, zeros_eq, Merkle.fullMessage,
      Merkle.fullNode_zeros, Merkle.fullNode_zeros]
    exact .inl (.inr (List.mem_map_of_mem (List.mem_map_of_mem
      (List.mem_range'_1.mpr ⟨by omega, by omega⟩))))

theorem apartFromZeros_memory : memory.ApartFromZeros :=
  collisionFree_messages.mono fun _ hx => hx.elim mem_messages_of_treeMessage mem_messages_of_zeros

end HaltingGuest

open HaltingGuest in
/-- The guest that halts comes back from its encodings: its memory, its program, the paused guest
and the segment that halts, which is proven then as before. -/
theorem Memory.encodings_faithful_halting :
    (∃ m, Memory.format.decode (Memory.format.encode HaltingGuest.memory) = .ok m ∧
      HaltingGuest.memory.SamePages m ∧ m.root = HaltingGuest.memory.root ∧
      m.DecodedFrom (Memory.format.encode HaltingGuest.memory)) ∧
    program.ComesBack ∧ paused.ComesBack ∧
    ∃ s r, Segment.format.decode (Segment.format.encode (segmentUnder HaltingGuest.params)) =
        .ok s ∧
      s.proveFully = .ok r ∧ ∀ budget cancelled,
        s.prove budget cancelled = (segmentUnder HaltingGuest.params).prove budget cancelled := by
  obtain ⟨hbuilt, hdecoded, hprogram, hpaused, hsegment⟩ := encodings_faithful
  have hwell := wellFormedFor_memory.toWellFormed
  refine ⟨?_, hprogram program hwell ⟨by decide, by decide⟩, hpaused paused hwell (by decide), ?_⟩
  · obtain ⟨hback, -, hsame⟩ := hbuilt HaltingGuest.memory built_memory
    obtain ⟨m, hm⟩ := hback.mpr hwell.toFits
    exact ⟨m, hm, (hsame m hm).1, (hsame m hm).2, (hdecoded _ m hm).2⟩
  · obtain ⟨m, -, hm, hfully, hbudgets⟩ :=
      hsegment (segmentUnder HaltingGuest.params) wellFormed_segmentUnder (by decide)
    have hproven := proveFully_segmentUnder validate_params rfl
    exact ⟨_, _, hm, hfully.trans hproven, hbudgets apartFromZeros_memory⟩

end ReplayVM
