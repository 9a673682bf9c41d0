import ReplayVM.Proofs.MemorySimulation
import ReplayVM.Proofs.SessionSoundness

/-!
# The entry state identifies the program

A program is named by two digests: the commitments to its parameters and to the state in which it
starts. As long as nothing that is hashed for two programs collides, the digests determine the
parameters and the entry point, and the root of the memory determines every word of it. The
memories need not be equal, since one may have a page of zeros where the other was never written;
but they hold the same words, which is all that a machine sees of them. So the two programs have the
same sessions.

## Main definitions

* `Memory.SameWords`: memories that hold the same words.
* `Program.Hashed`: what is hashed for a program.

## Main results

* `Memory.wordAt_eq_of_root_eq`: a root determines the words.
* `Memory.SameWords.simulation`: machines do not tell memories with the same words apart.
* `Program.identified`: programs with the same digests are the same to every input.
-/

namespace ReplayVM

/-! ### Memories with the same words -/

namespace Memory

/-- Memories that hold the same words, laid out as parameters say. They may differ in their pages,
since a page of zeros reads like a page that was never written. -/
structure SameWords (params : Params) (m n : Memory) : Prop where
  left : m.WellFormedFor params
  right : n.WellFormedFor params
  wordAt_eq : m.wordAt = n.wordAt

variable {params : Params} {m n : Memory}

theorem SameWords.memoryBits_eq (h : m.SameWords params n) : m.memoryBits = n.memoryBits :=
  h.left.memoryBits_eq.trans h.right.memoryBits_eq.symm

theorem SameWords.isWordAddr {addr : UInt32} (h : m.SameWords params n) (ha : m.IsWordAddr addr) :
    n.IsWordAddr addr :=
  ⟨ha.aligned, h.memoryBits_eq ▸ ha.inside⟩

theorem SameWords.loadWord_eq {addr : UInt32} (h : m.SameWords params n) (ha : m.IsWordAddr addr) :
    m.loadWord addr = n.loadWord addr := by
  rw [← ha.wordAt_wordIndex h.left.toFits, h.wordAt_eq,
    (h.isWordAddr ha).wordAt_wordIndex h.right.toFits]

theorem SameWords.storeWord {addr : UInt32} (h : m.SameWords params n) (ha : m.IsWordAddr addr)
    (value : UInt32) : (m.storeWord addr value).SameWords params (n.storeWord addr value) where
  left := h.left.storeWord ha value
  right := h.right.storeWord (h.isWordAddr ha) value
  wordAt_eq := by
    rw [h.left.toFits.wordAt_storeWord ha, h.right.toFits.wordAt_storeWord (h.isWordAddr ha),
      h.wordAt_eq]

/-- Machines do not tell memories with the same words apart. -/
theorem SameWords.simulation : Simulation params (SameWords params) where
  loadWord_eq := by
    rintro m n _ h ⟨data, hvalid, rfl⟩
    exact h.loadWord_eq (h.left.toFits.isWordAddr_of_isValidAddr h.left.toHasLayout hvalid)
  storeWord := by
    rintro m n _ value h ⟨data, hvalid, rfl⟩
    exact h.storeWord (h.left.toFits.isWordAddr_of_isValidAddr h.left.toHasLayout hvalid) value
  root_eq h := by rw [h.left.root_eq, h.right.root_eq, h.wordAt_eq, h.memoryBits_eq]
  path_eq h _ := by rw [h.left.path_eq, h.right.path_eq, h.wordAt_eq, h.memoryBits_eq]

/-- Memories of one size with one root hold the same words, unless what is hashed in their trees
collides. -/
theorem wordAt_eq_of_root_eq {hashed : Bytes → Prop} (hfree : CollisionFree hashed)
    (hm : m.WellFormed) (hn : n.WellFormed) (hbits : m.memoryBits = n.memoryBits)
    (hmtree : ∀ x, m.TreeMessage x → hashed x) (hntree : ∀ x, n.TreeMessage x → hashed x)
    (h : m.root = n.root) : m.wordAt = n.wordAt := by
  rw [hm.root_eq, hn.root_eq, ← hbits] at h
  unfold TreeMessage at hntree
  rw [← hbits] at hntree
  funext i
  rcases Nat.lt_or_ge i (1 <<< treeDepth m.memoryBits) with hi | hi
  · exact Merkle.eq_of_fullNode_eq hfree hmtree hntree (Nat.le_refl _) (by simp) h
      (MerklePath.shiftRight_eq_zero hi)
  · rw [wordAt_of_le hi, wordAt_of_le (hbits ▸ hi)]

end Memory

/-! ### Programs -/

namespace Program

variable {p q : Program}

/-- The byte strings that are hashed for a program: for its parameters, for its initial state, and
in the tree of its memory. -/
def Hashed (p : Program) : Bytes → Prop := fun x =>
  x = p.params.preimage.bytes ∨ x = p.initialState.preimage.bytes ∨ p.memory.TreeMessage x

/-- The entry state identifies the program. Programs over well-formed memories, as loaded programs
and programs that were read have them, that pass and have the same digests are made for the same
parameters and the same entry point and hold the same words, unless what is hashed for them
collides. On every input and under all options they are refused alike, or have sessions that are
equal in every segment, commitment and answer and in their summaries, over memories with the same
words. -/
theorem identified (hp : p.checkIntegrity = .ok ()) (hq : q.checkIntegrity = .ok ())
    (hpm : p.memory.WellFormed) (hqm : q.memory.WellFormed)
    (hfree : CollisionFree fun x => p.Hashed x ∨ q.Hashed x)
    (hconfig : p.configDigest = q.configDigest) (hentry : p.entryState = q.entryState) :
    p.params = q.params ∧ p.entry = q.entry ∧
      (∀ addr, p.memory.IsWordAddr addr → p.memory.loadWord addr = q.memory.loadWord addr) ∧
      ∀ input options, AgreesUpTo (Session.Related (Memory.SameWords p.params))
        (p.execute input options) (q.execute input options) := by
  obtain ⟨-, hpconfig, ⟨hppage, hpbits⟩, hpentry⟩ := checkIntegrity_eq_ok_iff.mp hp
  obtain ⟨-, hqconfig, ⟨hqpage, hqbits⟩, hqentry⟩ := checkIntegrity_eq_ok_iff.mp hq
  have hparams : p.params = q.params :=
    Params.eq_of_configDigest_eq hfree (.inl (.inl rfl)) (.inr (.inl rfl))
      (hpconfig.symm.trans (hconfig.trans hqconfig))
  have hstate : p.initialState = q.initialState :=
    SystemState.eq_of_commitment_eq hfree (.inl (.inr (.inl rfl))) (.inr (.inr (.inl rfl)))
      (hpentry.symm.trans (hentry.trans hqentry))
  have hpc : p.entry = q.entry := congrArg SystemState.pc hstate
  have hroot : p.memory.root = q.memory.root := congrArg SystemState.memoryRoot hstate
  have hbits : p.memory.memoryBits = q.memory.memoryBits := by
    rw [hpbits, hqbits, hparams]
  have hwords : p.memory.SameWords p.params q.memory :=
    ⟨⟨hpm, hppage, hpbits⟩, ⟨hqm, hparams ▸ hqpage, hparams ▸ hqbits⟩,
      Memory.wordAt_eq_of_root_eq hfree hpm hqm hbits (fun _ hx => .inl (.inr (.inr hx)))
        (fun _ hx => .inr (.inr (.inr hx))) hroot⟩
  exact ⟨hparams, hpc, fun _ => hwords.loadWord_eq,
    execute_related Memory.SameWords.simulation hparams hpc hwords⟩

end Program

/-! ### A guest with a page of zeros -/

namespace HaltingGuest

/-- The memory of the guest with one more page, of zeros. -/
def paddedMemory : Memory := memory.storeWord 0x2000 0

/-- The program of the guest with one more page. -/
def paddedProgram : Program := .make paddedMemory minMemory params ⟨"", [], 0⟩

theorem wellFormedFor_paddedMemory : paddedMemory.WellFormedFor params :=
  wellFormedFor_memory.storeWord (isWordAddr rfl rfl (by decide)) 0

theorem sameWords_paddedMemory : memory.SameWords params paddedMemory where
  left := wellFormedFor_memory
  right := wellFormedFor_paddedMemory
  wordAt_eq := by
    have haddr : memory.IsWordAddr 0x2000 := isWordAddr rfl rfl (by decide)
    rw [paddedMemory, wellFormedFor_memory.toFits.wordAt_storeWord haddr, wordAt_memory]
    funext i
    unfold Merkle.withWord
    split
    · rename_i h
      rw [h]
      rfl
    · rfl

theorem root_paddedMemory : paddedMemory.root = memory.root :=
  (Memory.SameWords.simulation.root_eq sameWords_paddedMemory).symm

/-- The further page holds zeros. -/
theorem pages_paddedMemory :
    HaltingGuest.memory.pages[(8 : UInt32)]? = none ∧ paddedMemory.pages[(8 : UInt32)]?.isSome := by
  have hstore {m : Memory} (hsize : m.pageSize = 1024) (addr value : UInt32) :
      (m.storeWord addr value).pages[(8 : UInt32)]? =
        if addr / 1024 = 8 then
          some ((m.pageOf addr).write (addr % 1024).toNat (Bytes.ofWord value))
        else m.pages[(8 : UInt32)]? := by
    rw [← hsize]
    exact Memory.getElem?_pages_writePage m addr (Bytes.ofWord value) 8
  constructor
  · rw [memory, hstore rfl, if_neg (by decide), hstore rfl, if_neg (by decide)]
    exact Std.TreeMap.getElem?_emptyc
  · rw [paddedMemory, hstore rfl, if_pos (by decide), Option.isSome_some]

theorem mem_messages_of_hashed {x : Bytes} (h : program.Hashed x) : x ∈ messages := by
  rcases h with rfl | rfl | hx
  · exact List.mem_append_left _
      (List.mem_append_left _ (List.mem_append_left _ List.mem_cons_self))
  · exact mem_messages_of_state (m := start) (by simp)
  · exact mem_messages_of_treeMessage hx

/-- What is hashed for the guest does not depend on the further page. -/
theorem hashed_paddedProgram : paddedProgram.Hashed = program.Hashed := by
  have htree : paddedProgram.memory.TreeMessage = program.memory.TreeMessage := by
    have hwords : paddedProgram.memory.wordAt = program.memory.wordAt :=
      sameWords_paddedMemory.wordAt_eq.symm
    have hbits : paddedProgram.memory.memoryBits = program.memory.memoryBits :=
      sameWords_paddedMemory.memoryBits_eq.symm
    rw [Memory.TreeMessage, Memory.TreeMessage, hwords, hbits]
  have hstate : paddedProgram.initialState = program.initialState :=
    congrArg (SystemState.of start) root_paddedMemory
  have hparams : paddedProgram.params = program.params := Eq.refl HaltingGuest.params
  unfold Program.Hashed
  rw [htree, hstate, hparams]

end HaltingGuest

open HaltingGuest in
/-- The guest is the same with one more page of zeros, although the page is stored. -/
theorem Program.identified_padded :
    HaltingGuest.memory.pages[(8 : UInt32)]? = none ∧ paddedMemory.pages[(8 : UInt32)]?.isSome ∧
      ∀ input options, AgreesUpTo (Session.Related (Memory.SameWords HaltingGuest.params))
        (program.execute input options) (paddedProgram.execute input options) := by
  have hfree : CollisionFree fun x => program.Hashed x ∨ paddedProgram.Hashed x := by
    refine collisionFree_messages.mono fun x hx => ?_
    rw [hashed_paddedProgram, or_self] at hx
    exact mem_messages_of_hashed hx
  have hpadded : paddedProgram.checkIntegrity = .ok () :=
    Program.checkIntegrity_make _ _ validate_params ⟨rfl, rfl⟩
  have hentry : program.entryState = paddedProgram.entryState :=
    congrArg (fun root => (SystemState.of start root).commitment) root_paddedMemory.symm
  obtain ⟨-, -, -, hsessions⟩ := identified checkIntegrity_program hpadded
    wellFormedFor_memory.toWellFormed wellFormedFor_paddedMemory.toWellFormed hfree
    (Eq.refl HaltingGuest.params.configDigest) hentry
  exact ⟨pages_paddedMemory.1, pages_paddedMemory.2, hsessions⟩

end ReplayVM
