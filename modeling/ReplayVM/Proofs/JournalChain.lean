import ReplayVM.Proofs.HashEvaluation
import ReplayVM.Proofs.InputDelivery
import ReplayVM.Proofs.ReachableStates

/-!
# The chain of the journal

The running hash of a journal is a chain with one link for each byte. It does not see how the bytes
were cut into chunks: not by the system calls that write up to four of them, not by the segments and
the sessions in which these calls are made. Followed backwards, the chain also gives the bytes back.
Its last link tells the last byte and the hash before it, and only the empty chain ends in zeros, so
that no length is needed to tell journals apart. Both need that what is hashed in the two chains
does not collide, and that nothing of it hashes to zeros.

## Main definitions

* `Machine.chunk`: the bytes that a system call writes.
* `Program.HasWritten`: reached machines with the chunks that were written before them.
* `journalMessages`: what is hashed in the chain of a journal.

## Main results

* `Output.foldl_absorb`: chunks are absorbed like their bytes in a row.
* `Machine.act_write`: a system call can write any chunk of up to four bytes.
* `Program.HasWritten.output_eq`, `Program.HasWritten.journal_eq`: the chunks of a run.
* `eq_of_journalDigest_eq`: a journal is told by its hash.
* `Output.journal_chain`: the laws of the chain.
-/

namespace ReplayVM

/-! ### Chunks -/

theorem Output.absorb_nil (o : Output) : o.absorb [] = o := by
  simp [absorb]

/-- Chunks are absorbed like their bytes in a row. -/
theorem Output.foldl_absorb (o : Output) (chunks : List Bytes) :
    chunks.foldl Output.absorb o = o.absorb chunks.flatten := by
  induction chunks generalizing o with
  | nil => exact o.absorb_nil.symm
  | cons chunk chunks ih => rw [List.foldl_cons, ih, List.flatten_cons, absorb_append]

theorem Output.absorb_empty (bytes : Bytes) :
    Output.absorb {} bytes = ⟨bytes.length.toUInt32, journalDigest bytes⟩ := by
  rw [absorb, UInt32.zero_add]
  rfl

namespace Machine

/-- The bytes that a system call writes: some low bytes of a register. -/
def chunk (m : Machine) : Bytes := (Bytes.ofWord (m.cpu.reg .a0)).take (m.cpu.reg .a1).toNat

/-- A system call can write any chunk of up to four bytes, if there is room for it. -/
theorem act_write (bus : Bus σ) (params : Params) {m : Machine} (s : σ) {bytes : Bytes}
    (hlen : bytes.length ≤ 4)
    (hcall : m.cpu.reg .a7 = writeCall) (hvalue : m.cpu.reg .a0 = Bytes.toWord bytes)
    (hcount : m.cpu.reg .a1 = bytes.length.toUInt32)
    (hroom : m.output.len.toNat + bytes.length ≤ maxOutputLen) :
    m.chunk = bytes ∧ Exec.act (Instruction.perform bus params .ecall) m s =
      (.ok .next, { m with output := m.output.absorb bytes }.advance, s) := by
  have htoNat : bytes.length.toUInt32.toNat = bytes.length :=
    UInt32.toNat_ofNat_of_lt' (Nat.lt_of_le_of_lt hlen (by decide))
  have hchunk : m.chunk = bytes := by
    rw [chunk, hvalue, hcount, htoNat, Bytes.ofWord_toWord hlen, List.take_left]
  have hfits : ¬m.cpu.reg .a1 > 4 := by
    rw [gt_iff_lt, UInt32.lt_iff_toNat_lt, hcount, htoNat]
    exact Nat.not_lt.mpr hlen
  have hfitsRoom : ¬m.output.len.toNat + (m.cpu.reg .a1).toNat > maxOutputLen := by
    rw [hcount, htoNat]
    exact Nat.not_lt.mpr hroom
  refine ⟨hchunk, ?_⟩
  rw [← hchunk, Exec.act_perform, Instruction.effect]
  simp only [callEffect, hcall, writeCall, if_neg hfits, if_neg hfitsRoom]
  rfl

end Machine

/-! ### Chunks of a run -/

/-- The machines that a program reaches, with the chunks that were written before them: a system
call adds its chunk, whereas the start of a segment and the continuation on a fresh input leave the
chunks as they are. -/
inductive Program.HasWritten (p : Program) : (chunks : List Bytes) → Live → Prop where
  | start (input : Bytes) : HasWritten p [] (p.live input)
  | quiet {chunks : List Bytes} {s t : Live} {outcome : StepOutcome} (h : HasWritten p chunks s)
      (hstep : s.step = (.ok outcome, t)) (houtput : t.machine.output = s.machine.output) :
      HasWritten p chunks t
  | write {chunks : List Bytes} {s t : Live} {outcome : StepOutcome} (h : HasWritten p chunks s)
      (hstep : s.step = (.ok outcome, t)) (hwrites : s.machine.Writes t.machine) :
      HasWritten p (chunks ++ [s.machine.chunk]) t
  | boundary {chunks : List Bytes} {s : Live} (h : HasWritten p chunks s) :
      HasWritten p chunks s.fresh
  | resume {chunks : List Bytes} {s : Live} (h : HasWritten p chunks s) (index : UInt32)
      (input : Bytes) : HasWritten p chunks (Continuation.live ⟨s.params, s.machine.cpu,
        s.world.memory, s.machine.output, s.journal.toList, index⟩ input)

theorem Machine.Writes.written_eq {before after : Machine} (h : before.Writes after) :
    Live.written before after = before.chunk := by
  rw [Live.written, h.len_sub, chunk]

namespace Program

variable {p : Program} {chunks : List Bytes} {input : Bytes} {s t : Live}

/-- Machines that have written are reached. -/
theorem HasWritten.reaches (h : p.HasWritten chunks s) : ∃ input, p.Reaches input s := by
  induction h with
  | start input => exact ⟨input, .start input⟩
  | quiet _ hstep _ ih | write _ hstep _ ih =>
    obtain ⟨input, hreaches⟩ := ih
    exact ⟨input, hreaches.step hstep⟩
  | boundary _ ih =>
    obtain ⟨input, hreaches⟩ := ih
    exact ⟨input, hreaches.boundary⟩
  | resume _ index input ih =>
    obtain ⟨_, hreaches⟩ := ih
    exact ⟨input, hreaches.resume index input⟩

/-- Reached machines have written some chunks. -/
theorem Reaches.exists_hasWritten (h : p.Reaches input s) : ∃ chunks, p.HasWritten chunks s := by
  induction h with
  | start input => exact ⟨[], .start input⟩
  | step _ hstep ih =>
    obtain ⟨chunks, hwritten⟩ := ih
    rcases (Live.leaves_of_step hstep).output_eq with houtput | hwrites
    · exact ⟨chunks, hwritten.quiet hstep houtput⟩
    · exact ⟨_, hwritten.write hstep hwrites⟩
  | boundary _ ih =>
    obtain ⟨chunks, hwritten⟩ := ih
    exact ⟨chunks, hwritten.boundary⟩
  | resume _ index input ih =>
    obtain ⟨chunks, hwritten⟩ := ih
    exact ⟨chunks, hwritten.resume index input⟩

namespace HasWritten

theorem length_le (h : p.HasWritten chunks s) : ∀ chunk ∈ chunks, chunk.length ≤ 4 := by
  induction h with
  | start => exact List.forall_mem_nil _
  | quiet _ _ _ ih | boundary _ ih | resume _ _ _ ih => exact ih
  | write _ _ hwrites ih =>
    refine List.forall_mem_append.mpr ⟨ih, List.forall_mem_singleton.mpr ?_⟩
    rw [Machine.chunk, List.length_take, Bytes.length_ofWord]
    exact Nat.min_le_right _ _

/-- The output of a machine has absorbed the chunks, one after the other. -/
theorem output_eq (h : p.HasWritten chunks s) :
    s.machine.output = chunks.foldl Output.absorb {} := by
  induction h with
  | start => rfl
  | quiet _ _ houtput ih => exact houtput.trans ih
  | write _ _ hwrites ih => rw [hwrites.output_eq, ih, List.foldl_concat, Machine.chunk]
  | boundary _ ih | resume _ _ _ ih => exact ih

/-- The journal of a machine is the chunks in a row. -/
theorem journal_eq (h : p.HasWritten chunks s) : s.journal.toList = chunks.flatten := by
  have hjournal {s t : Live} {outcome : StepOutcome} (hstep : s.step = (.ok outcome, t)) :
      t.journal.toList = s.journal.toList ++ Live.written s.machine t.machine := by
    obtain ⟨-, rfl⟩ := Live.step_of_ok hstep
    exact Array.toList_appendList
  induction h with
  | start => rfl
  | quiet _ hstep houtput ih =>
    rw [hjournal hstep, ih, Live.written, houtput, UInt32.sub_self]
    exact List.append_nil _
  | write _ hstep hwrites ih =>
    rw [hjournal hstep, ih, hwrites.written_eq, List.flatten_concat]
  | boundary _ ih | resume _ _ _ ih => exact ih

end HasWritten

end Program

/-! ### The chain backwards -/

/-- What is hashed when bytes are absorbed from a running hash on. -/
def Output.messages : Digest → Bytes → List Bytes
  | _, [] => []
  | d, b :: bytes => linkBytes d b :: messages (link d b) bytes

/-- What is hashed in the chain of a journal. -/
def journalMessages (bytes : Bytes) : List Bytes := Output.messages .zero bytes

theorem Output.messages_concat (d : Digest) (bytes : Bytes) (b : UInt8) :
    messages d (bytes ++ [b]) = messages d bytes ++ [linkBytes (bytes.foldl link d) b] := by
  induction bytes generalizing d with
  | nil => rfl
  | cons c bytes ih =>
    rw [List.cons_append, messages, messages, ih, List.foldl_cons, List.cons_append]

theorem journalMessages_concat (bytes : Bytes) (b : UInt8) : journalMessages (bytes ++ [b]) =
    journalMessages bytes ++ [Output.linkBytes (journalDigest bytes) b] :=
  Output.messages_concat .zero bytes b

theorem journalDigest_concat (bytes : Bytes) (b : UInt8) : journalDigest (bytes ++ [b]) =
    Digest.hash (Output.linkBytes (journalDigest bytes) b) :=
  List.foldl_concat Output.link .zero b bytes

theorem Output.linkBytes_inj {d e : Digest} {b c : UInt8} (h : linkBytes d b = linkBytes e c) :
    d = e ∧ b = c := by
  rw [linkBytes, linkBytes] at h
  obtain ⟨hdigest, hbyte⟩ := List.append_inj h (d.length_toBytes.trans e.length_toBytes.symm)
  exact ⟨Digest.toBytes_inj.mp hdigest, List.singleton_inj.mp hbyte⟩

/-- A journal is told by its hash, unless what is hashed collides or hashes to zeros. -/
theorem eq_of_journalDigest_eq {hashed : Bytes → Prop} (hfree : CollisionFree hashed)
    (hzero : ∀ x, hashed x → Digest.hash x ≠ .zero) {a b : Bytes}
    (ha : ∀ x ∈ journalMessages a, hashed x) (hb : ∀ x ∈ journalMessages b, hashed x)
    (h : journalDigest a = journalDigest b) : a = b := by
  -- The chains are followed from their ends, so the induction takes the last byte of one of them.
  induction a using List.reverseRecOn generalizing b with
  | nil =>
    cases b using List.reverseRecOn with
    | nil => rfl
    | append_singleton b y =>
      rw [journalMessages_concat, List.forall_mem_append, List.forall_mem_singleton] at hb
      rw [journalDigest_concat] at h
      exact absurd h.symm (hzero _ hb.2)
  | append_singleton a x ih =>
    rw [journalMessages_concat, List.forall_mem_append, List.forall_mem_singleton] at ha
    cases b using List.reverseRecOn with
    | nil =>
      rw [journalDigest_concat] at h
      exact absurd h (hzero _ ha.2)
    | append_singleton b y =>
      rw [journalMessages_concat, List.forall_mem_append, List.forall_mem_singleton] at hb
      rw [journalDigest_concat, journalDigest_concat] at h
      obtain ⟨hdigest, rfl⟩ := Output.linkBytes_inj (hfree _ _ ha.2 hb.2 h)
      rw [ih ha.1 hb.1 hdigest]

/-- **The chain of the journal.** Chunks that are absorbed from the start give the number of their
bytes and the hash of these bytes in a row, however they are cut. So do the chunks that system calls
write, any of up to four bytes each, across the segments and the sessions of a run: every machine
that a program reaches has written some chunks, and they make up its journal. Journals of any
lengths with one hash are equal, unless what is hashed for them collides or hashes to zeros. -/
theorem Output.journal_chain :
    (∀ chunks : List Bytes, chunks.foldl absorb {} =
        ⟨chunks.flatten.length.toUInt32, journalDigest chunks.flatten⟩ ∧
      (chunks.flatten.length < 2 ^ 32 →
        (chunks.foldl absorb {}).len.toNat = chunks.flatten.length)) ∧
    (∀ {σ : Type} (bus : Bus σ) (params : Params) (s : σ) (m : Machine) (bytes : Bytes),
      bytes.length ≤ 4 → m.cpu.reg .a7 = Machine.writeCall → m.cpu.reg .a0 = Bytes.toWord bytes →
      m.cpu.reg .a1 = bytes.length.toUInt32 →
      m.output.len.toNat + bytes.length ≤ maxOutputLen → m.chunk = bytes ∧
        Exec.act (Instruction.perform bus params .ecall) m s =
          (.ok .next, { m with output := m.output.absorb bytes }.advance, s)) ∧
    (∀ (p : Program) (chunks : List Bytes) (s : Live), p.HasWritten chunks s →
      (∀ chunk ∈ chunks, chunk.length ≤ 4) ∧ s.machine.output = chunks.foldl absorb {} ∧
        s.journal.toList = chunks.flatten ∧
        s.machine.output.len.toNat = chunks.flatten.length ∧
        s.machine.output.digest = journalDigest chunks.flatten) ∧
    (∀ (p : Program) (input : Bytes) (s : Live), p.Reaches input s →
      ∃ chunks, p.HasWritten chunks s) ∧
    ∀ a b : Bytes, CollisionFree (fun x => x ∈ journalMessages a ++ journalMessages b) →
      (∀ x ∈ journalMessages a ++ journalMessages b, Digest.hash x ≠ .zero) →
      (journalDigest a = journalDigest b ↔ a = b) := by
  have hchunks (chunks : List Bytes) : chunks.foldl absorb {} =
      ⟨chunks.flatten.length.toUInt32, journalDigest chunks.flatten⟩ := by
    rw [foldl_absorb, absorb_empty]
  refine ⟨fun chunks => ⟨hchunks chunks, fun hlen => ?_⟩,
    fun bus params s m bytes hlen hcall hvalue hcount hroom =>
      Machine.act_write bus params s hlen hcall hvalue hcount hroom,
    ?_, fun p input s h => h.exists_hasWritten, ?_⟩
  · rw [hchunks]
    exact UInt32.toNat_ofNat_of_lt' hlen
  · intro p chunks s h
    obtain ⟨input, hreaches⟩ := h.reaches
    have hlen := hreaches.accounted.len_eq
    have hdigest := hreaches.accounted.digest_eq
    rw [← Array.length_toList, h.journal_eq] at hlen
    rw [h.journal_eq] at hdigest
    exact ⟨h.length_le, h.output_eq, h.journal_eq, hlen, hdigest⟩
  · intro a b hfree hzero
    refine ⟨fun h => ?_, congrArg journalDigest⟩
    exact eq_of_journalDigest_eq hfree hzero (fun x hx => List.mem_append_left _ hx)
      (fun x hx => List.mem_append_right _ hx) h

open WritingGuest in
/-- Two bytes in one system call, and two journals of different lengths. -/
theorem Output.journal_chain_writing :
    (program.HasWritten [[0, 0]] called ∧ called.journal.toList = [0, 0] ∧
      called.machine.output.digest = journalDigest [0, 0]) ∧
    (∃ chunks, program.HasWritten chunks calling) ∧
    journalDigest [1] ≠ journalDigest [2, 3] := by
  obtain ⟨-, hsyscall, hwritten, hexists, htold⟩ := journal_chain
  have hcalled : program.HasWritten [[0, 0]] called := by
    have hwrites : calling.machine.Writes called.machine :=
      (Live.leaves_of_step step_calling).output_eq.resolve_left fun h =>
        absurd (congrArg Output.len h) (by decide +kernel)
    have hchunk : calling.machine.chunk = [0, 0] :=
      (hsyscall World.bus {} calling.world calling.machine [0, 0] (by decide) (by decide +kernel)
        (by decide +kernel) (by decide +kernel) (by decide +kernel)).1
    have hquiet : program.HasWritten [] calling :=
      ((Program.HasWritten.start []).quiet step_start (by decide +kernel)).quiet step_first
        (by decide +kernel)
    exact hchunk ▸ hquiet.write step_calling hwrites
  have hmessages : journalMessages [1] ++ journalMessages [2, 3] = [linkBytes .zero 1,
      linkBytes .zero 2, linkBytes (Digest.evaluate (linkBytes .zero 2)) 3] := by
    rw [← Digest.hash_eq_evaluate]
    rfl
  have hfree : CollisionFree fun x => x ∈ journalMessages [1] ++ journalMessages [2, 3] := by
    rw [hmessages]
    exact .of_nodup (by decide +kernel)
  have hzero : ∀ x ∈ journalMessages [1] ++ journalMessages [2, 3], Digest.hash x ≠ .zero := by
    rw [hmessages, Digest.hash_eq_evaluate]
    decide +kernel
  obtain ⟨-, -, hjournal, -, hdigest⟩ := hwritten _ _ _ hcalled
  exact ⟨⟨hcalled, hjournal, hdigest⟩, hexists _ _ _ reaches_calling,
    fun h => absurd ((htold _ _ hfree hzero).mp h) (by decide)⟩

end ReplayVM
