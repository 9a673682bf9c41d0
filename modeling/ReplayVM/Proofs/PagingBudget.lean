import Mathlib.Data.Finset.Card
import Mathlib.Data.Finset.Option
import ReplayVM.Proofs.BusDiscipline
import ReplayVM.Proofs.PlainRuns
import ReplayVM.Proofs.SessionChains

/-!
# The budget of pages

A segment touches a limited number of pages. Before an instruction runs, its pages are found from
its word and its registers, and the segment is split off if they do not fit; only the first
instruction of a segment runs without being asked. For instructions that are executed, the pages
that were found are those that they access, so the limit holds for what the segment does; and a
segment is split off for its pages only if the next instruction would pass the limit.

## Main definitions

* `Live.instructionPages`: the pages of the addresses that an instruction is about.
* `Live.accessedPages`: the pages that the bus is asked about.
* `Live.neededPages`: the pages that are counted before an instruction.
* `Live.pagesOver`: the pages of a number of instructions.
* `Live.Course`: what is counted along the rest of a segment.
* `Live.Paged`, `Session.KeepsToPages`: segments that keep to their pages.

## Main results

* `Live.neededPages_of_ok`, `Live.accessedPages_of_ok`: an instruction that is executed accesses the
  pages that were counted.
* `Live.course_runSegment`: what is counted along a segment.
* `Session.keepsToPages`: the segments of every session keep to their pages.
-/

namespace ReplayVM

namespace Live

/-! ### Pages of one instruction -/

/-- The address of the data that the instruction at the program counter accesses. -/
def dataAddress (s : Live) : Option UInt32 :=
  (Instruction.decode (s.world.memory.loadWord s.machine.cpu.pc)).bind fun inst =>
    inst.dataAddress s.machine.cpu

/-- The pages of the addresses that the instruction at the program counter is about: its own, and
that of the data which it loads or stores. -/
def instructionPages (s : Live) : Finset UInt32 :=
  insert (s.params.pageIndex s.machine.cpu.pc) (s.dataAddress.map s.params.pageIndex).toFinset

/-- The pages of the words that the instruction at the program counter fetches, loads and stores. -/
def accessedPages (s : Live) : Finset UInt32 :=
  (((s.machine.accesses World.bus s.params s.world).filterMap Access.addr?).map
    s.params.pageIndex).toFinset

/-- The pages that the next instruction needs: its own, and that of its data if this can be
addressed. There is no next instruction, and no page is needed, where none can be fetched. -/
def neededPages (s : Live) : Finset UInt32 :=
  if Machine.canFetch s.params s.machine.cpu.pc then
    insert (s.params.pageIndex s.machine.cpu.pc)
      ((s.dataAddress.filter s.params.isValidAddr).map s.params.pageIndex).toFinset
  else ∅

variable {s t : Live} {outcome : StepOutcome}

theorem dataPage_eq (s : Live) : s.dataPage = s.dataAddress.bind fun addr =>
    if s.params.isValidAddr addr ∧ s.params.pageIndex addr ≠ s.params.pageIndex s.machine.cpu.pc
    then some (s.params.pageIndex addr) else none := by
  unfold dataPage dataAddress
  cases Instruction.decode (s.world.memory.loadWord s.machine.cpu.pc) <;> rfl

/-- The page of the data is another page than the instruction's own. -/
theorem dataPage_ne (s : Live) : s.params.pageIndex s.machine.cpu.pc ∉ s.dataPage.toList := by
  rw [dataPage_eq]
  cases s.dataAddress with
  | none => simp
  | some addr =>
    rw [Option.bind_some]
    split
    · rename_i h
      simpa using h.2.symm
    · simp

/-- The pages of the next instruction are counted before it runs. -/
theorem toFinset_nextPages (s : Live) : s.nextPages.toFinset = s.neededPages := by
  simp only [nextPages, neededPages]
  split
  · rw [List.toFinset_cons, dataPage_eq]
    cases s.dataAddress with
    | none => rfl
    | some addr =>
      by_cases hvalid : s.params.isValidAddr addr = true <;>
        by_cases hpage : s.params.pageIndex addr = s.params.pageIndex s.machine.cpu.pc <;>
          simp [Option.filter_some, hvalid, hpage]
  · rfl

theorem nodup_nextPages (s : Live) : s.nextPages.Nodup := by
  simp only [nextPages]
  split
  · refine List.nodup_cons.mpr ⟨s.dataPage_ne, ?_⟩
    cases s.dataPage <;> simp
  · exact List.nodup_nil

theorem length_nextPages_le (s : Live) : s.nextPages.length ≤ 2 := by
  simp only [nextPages]
  split
  · cases s.dataPage <;> simp
  · simp

/-- An instruction with an effect addresses its data. -/
theorem isValidAddr_of_follows {params : Params} {m : Machine} {inst : Instruction}
    {effect : Effect} (h : effect.Follows params m inst) {addr : UInt32}
    (haddr : inst.dataAddress m.cpu = some addr) : params.isValidAddr addr = true := by
  cases h with
  | compute hinst | move hinst =>
    cases inst <;> simp_all [Instruction.dataAddress, Instruction.computes, Instruction.moves]
  | load haccess | store haccess =>
    obtain rfl := Option.some.inj haddr
    exact isValidAddr_of_checkAccess haccess
  | halt | pause | yield | write | call => simp [Instruction.dataAddress] at haddr

/-- An instruction that is executed asks the bus for its word and for what its effect needs. -/
theorem exists_accesses_of_ok (h : s.step = (.ok outcome, t)) :
    Machine.canFetch s.params s.machine.cpu.pc = true ∧
    ∃ (inst : Instruction) (effect : Effect) (word : UInt32),
      s.dataAddress = inst.dataAddress s.machine.cpu ∧
      effect.Follows s.params s.machine inst ∧
      s.machine.accesses World.bus s.params s.world =
        .fetch s.machine.cpu.pc word :: effect.accesses World.bus s.world := by
  have hresult := (step_of_ok h).1
  cases hf : Machine.canFetch s.params s.machine.cpu.pc with
  | false =>
    rw [Machine.step_of_not_canFetch hf] at hresult
    simp at hresult
  | true =>
    cases hp : s.machine.plan s.params (World.bus.fetch s.world s.machine.cpu.pc).1 with
    | error reason =>
      rw [Machine.step_of_plan_error hf hp] at hresult
      simp at hresult
    | ok effect =>
      obtain ⟨inst, hinst, hfollows⟩ := Machine.follows_of_plan hp
      refine ⟨rfl, inst, effect, _, ?_, hfollows, Machine.accesses_of_plan_ok hf hp⟩
      change (Instruction.decode (World.bus.fetch s.world s.machine.cpu.pc).1).bind _ = _
      rw [hinst, Option.bind_some]

/-- An instruction that is executed needs the pages of its addresses. -/
theorem neededPages_of_ok (h : s.step = (.ok outcome, t)) : s.neededPages = s.instructionPages := by
  obtain ⟨hf, inst, effect, word, hdata, hfollows, -⟩ := exists_accesses_of_ok h
  have hvalid : s.dataAddress.filter s.params.isValidAddr = s.dataAddress := by
    cases haddr : s.dataAddress with
    | none => rfl
    | some addr =>
      exact Option.filter_some_pos (isValidAddr_of_follows hfollows (hdata ▸ haddr))
  rw [neededPages, if_pos hf, hvalid, instructionPages]

/-- An instruction that is executed accesses the pages of its addresses. -/
theorem accessedPages_of_ok (hparams : s.params.validate = .ok ())
    (h : s.step = (.ok outcome, t)) : s.accessedPages = s.instructionPages := by
  obtain ⟨hf, inst, effect, word, hdata, hfollows, haccesses⟩ := exists_accesses_of_ok h
  rw [accessedPages, haccesses, instructionPages, hdata]
  cases hfollows with
  | compute hinst | move hinst =>
    cases inst <;> simp_all [Instruction.dataAddress, Instruction.computes, Instruction.moves,
      Effect.accesses, Access.addr?]
  | load haccess | store haccess =>
    simp [Instruction.dataAddress, Effect.accesses, Access.addr?,
      Params.pageIndex_alignDown hparams]
  | halt | pause | yield | write | call =>
    simp [Instruction.dataAddress, Effect.accesses, Access.addr?, List.filterMap_cons]

/-! ### Pages of a segment -/

/-- The pages of a number of instructions, of which each has the given ones. -/
def pagesOver (pages : Live → Finset UInt32) : Nat → Live → Finset UInt32
  | 0, _ => ∅
  | n + 1, s => pages s ∪ pagesOver pages n s.step.2

/-- Instructions that are executed have the pages that were counted for them. -/
theorem pagesOver_congr {pages pages' : Live → Finset UInt32} {n : Nat}
    (h : ∀ j < n, pages (s.after j) = pages' (s.after j)) :
    pagesOver pages n s = pagesOver pages' n s := by
  induction n generalizing s with
  | zero => rfl
  | succ n ih =>
    have hfirst : pages s = pages' s := h 0 (Nat.succ_pos n)
    rw [pagesOver, pagesOver, hfirst, ih fun j hj => h (j + 1) (Nat.succ_lt_succ hj)]

theorem pagesOver_remembering {pages : Live → Finset UInt32} {before : List HostReply}
    (h : ∀ s, pages (s.remembering before) = pages s) (n : Nat) (s : Live) :
    pagesOver pages n (s.remembering before) = pagesOver pages n s := by
  induction n generalizing s with
  | zero => rfl
  | succ n ih => rw [pagesOver, pagesOver, h, step_remembering, ih]

/-- A number of instructions that neither halt nor pause at their end. -/
def Unfinished (s : Live) (count : Nat) : Prop :=
  (∀ code, s.lastOutcome count ≠ some (.halted code)) ∧
    ∀ code, s.lastOutcome count ≠ some (.paused code)

/-- A segment from a machine, with its exit and its number of instructions, that keeps to its
pages: those of its instructions are at most as many as are allowed, also with an instruction that
faults, and without a halt or pause it is split off where it is full, where the guest asks for it,
and where it has instructions and the next one needs too many further pages. -/
structure Paged (pages : Live → Finset UInt32) (segmentLimit maxCycles maxPages : Nat) (s : Live)
    (exit : ExitCode) (count : Nat) : Prop where
  card_le : (pagesOver pages count s).card ≤ maxPages
  card_le_of_fault : ∀ reason, exit = .fault reason → reason ≠ .sessionLimitExceeded →
    (pagesOver pages count s ∪ (s.after count).neededPages).card ≤ maxPages
  split_iff : s.Unfinished count → (exit = .systemSplit ↔
    count = segmentLimit ∨ s.lastOutcome count = some .yielded ∨
      (s.after count).cycles < maxCycles ∧ 0 < count ∧
        maxPages < (pagesOver pages count s ∪ (s.after count).neededPages).card)

/-- What is left of a segment that has touched some pages, has executed a number of instructions and
has room for others. -/
structure Course (limits : RunLimits) (room : Nat) (before : Finset UInt32) (earlier : Nat)
    (s : Live) (exit : ExitCode) (count : Nat) : Prop where
  card_le : (before ∪ pagesOver neededPages count s).card ≤ limits.maxSegmentPages
  card_le_of_fault : ∀ reason, exit = .fault reason → reason ≠ .sessionLimitExceeded →
    (before ∪ pagesOver neededPages count s ∪ (s.after count).neededPages).card ≤
      limits.maxSegmentPages
  split_iff : s.Unfinished count → (exit = .systemSplit ↔
    count = room ∨ s.lastOutcome count = some .yielded ∨
      (s.after count).cycles < limits.maxCycles ∧ 0 < earlier + count ∧
        limits.maxSegmentPages <
          (before ∪ pagesOver neededPages count s ∪ (s.after count).neededPages).card)

namespace Course

variable {limits : RunLimits} {room earlier count : Nat} {before : Finset UInt32} {exit : ExitCode}

/-- A segment ends before the next instruction. -/
theorem stop (hcard : before.card ≤ limits.maxSegmentPages)
    (hfault : ∀ reason, exit = .fault reason → reason ≠ .sessionLimitExceeded →
      (before ∪ s.neededPages).card ≤ limits.maxSegmentPages)
    (hsplit : exit = .systemSplit ↔ room = 0 ∨ s.cycles < limits.maxCycles ∧ 0 < earlier ∧
      limits.maxSegmentPages < (before ∪ s.neededPages).card) :
    Course limits room before earlier s exit 0 where
  card_le := by rwa [pagesOver, Finset.union_empty]
  card_le_of_fault := by rwa [pagesOver, Finset.union_empty]
  split_iff _ := by
    rw [pagesOver, Finset.union_empty, hsplit]
    simp [lastOutcome, after, eq_comm]

/-- A segment ends with an instruction behind which it does not go on. -/
theorem last (h : s.step = (.ok outcome, t))
    (hcard : (before ∪ s.neededPages).card ≤ limits.maxSegmentPages)
    (hfault : ∀ reason, exit ≠ .fault reason)
    (houtcome : (∃ code, outcome = .halted code) ∨ (∃ code, outcome = .paused code) ∨
      outcome = .yielded ∧ exit = .systemSplit) :
    Course limits (room + 1) before earlier s exit 1 where
  card_le := by rwa [pagesOver, pagesOver, Finset.union_empty]
  card_le_of_fault reason hreason := absurd hreason (hfault reason)
  split_iff hunfinished := by
    have hlast : s.lastOutcome 1 = some outcome := outcomeAt_zero h
    obtain ⟨code, rfl⟩ | ⟨code, rfl⟩ | ⟨rfl, hexit⟩ := houtcome
    · exact absurd hlast (hunfinished.1 code)
    · exact absurd hlast (hunfinished.2 code)
    · exact iff_of_true hexit (.inr (.inl hlast))

/-- Behind an instruction with which a run goes on, its outcome does not count. -/
theorem lastOutcome_succ (h : s.step = (.ok .next, t)) (houtcome : outcome ≠ .next) (n : Nat) :
    s.lastOutcome (n + 1) = some outcome ↔ t.lastOutcome n = some outcome := by
  cases n with
  | zero =>
    have hfirst : s.lastOutcome 1 = some .next := outcomeAt_zero h
    rw [hfirst]
    simp [lastOutcome, houtcome.symm]
  | succ n => rw [lastOutcome, outcomeAt_succ h, lastOutcome]

/-- A segment goes on behind an instruction. -/
theorem next (h : s.step = (.ok .next, t))
    (hrest : Course limits room (before ∪ s.neededPages) (earlier + 1) t exit count) :
    Course limits (room + 1) before earlier s exit (count + 1) where
  card_le := by
    rw [pagesOver, h, ← Finset.union_assoc]
    exact hrest.card_le
  card_le_of_fault := by
    rw [pagesOver, h, ← Finset.union_assoc, after_succ h]
    exact hrest.card_le_of_fault
  split_iff hunfinished := by
    have hrest' : t.Unfinished count :=
      ⟨fun code hlast => hunfinished.1 code ((lastOutcome_succ h (by simp) count).mpr hlast),
        fun code hlast => hunfinished.2 code ((lastOutcome_succ h (by simp) count).mpr hlast)⟩
    rw [pagesOver, h, ← Finset.union_assoc, after_succ h, lastOutcome_succ h (by simp),
      hrest.split_iff hrest', Nat.add_right_cancel_iff, Nat.add_right_comm, Nat.add_assoc]

end Course

variable {limits : RunLimits}

/-- The pages counted for a segment together with those of the next instruction. -/
theorem toFinset_fresh_append (s : Live) (pages : List UInt32) :
    (s.nextPages.filter (fun page => page ∉ pages) ++ pages).toFinset =
      pages.toFinset ∪ s.neededPages := by
  rw [← toFinset_nextPages]
  ext page
  simp
  tauto

theorem nodup_fresh_append {pages : List UInt32} (h : pages.Nodup) (s : Live) :
    (s.nextPages.filter (fun page => page ∉ pages) ++ pages).Nodup := by
  refine (s.nodup_nextPages.filter _).append h fun page hfresh hpage => ?_
  simp_all

/-- What is counted is the number of pages. -/
theorem card_union_neededPages {pages : List UInt32} (h : pages.Nodup) (s : Live) :
    (pages.toFinset ∪ s.neededPages).card =
      pages.length + (s.nextPages.filter fun page => page ∉ pages).length := by
  rw [← toFinset_fresh_append, List.toFinset_card_of_nodup (nodup_fresh_append h s),
    List.length_append, Nat.add_comm]

/-- An instruction that a segment has room for keeps to its pages. The first instruction of a
segment is not asked about, but needs two pages at most. -/
theorem card_union_le {pages : List UInt32} {count : Nat} (hmax : 2 ≤ limits.maxSegmentPages)
    (hnodup : pages.Nodup) (hfirst : count = 0 → pages = [])
    (h : ¬(0 < count ∧ limits.maxSegmentPages <
      pages.length + (s.nextPages.filter fun page => page ∉ pages).length)) :
    (pages.toFinset ∪ s.neededPages).card ≤ limits.maxSegmentPages := by
  rw [card_union_neededPages hnodup]
  cases count with
  | zero =>
    have hle := List.length_filter_le (fun page => page ∉ pages) s.nextPages
    have htwo := s.length_nextPages_le
    rw [hfirst rfl] at hle ⊢
    simp only [List.length_nil] at hle ⊢
    omega
  | succ count => exact Nat.le_of_not_lt fun hlt => h ⟨Nat.succ_pos count, hlt⟩

/-- What is counted along a segment keeps to its pages. -/
theorem course_runSegment (hmax : 2 ≤ limits.maxSegmentPages) (room : Nat) (pages : List UInt32)
    (count : Nat) (s : Live) (hnodup : pages.Nodup) (hlen : pages.length ≤ limits.maxSegmentPages)
    (hfirst : count = 0 → pages = []) :
    ∃ n, (s.runSegment limits room pages count).count = count + n ∧
      Course limits room pages.toFinset count s (s.runSegment limits room pages count).exit n := by
  have hcard {pages : List UInt32} (hnodup : pages.Nodup)
      (hlen : pages.length ≤ limits.maxSegmentPages) :
      pages.toFinset.card ≤ limits.maxSegmentPages := by
    rwa [List.toFinset_card_of_nodup hnodup]
  fun_induction runSegment limits room pages count s with
  | case1 pages count s =>
    exact ⟨0, rfl, .stop (hcard hnodup hlen) (by simp) (by simp)⟩
  | case2 room pages count s h =>
    refine ⟨0, rfl, .stop (hcard hnodup hlen) ?_ ?_⟩
    · rintro reason ⟨⟩ hreason
      exact absurd rfl hreason
    · simp [Nat.not_lt_of_le h]
  | case3 room pages count s h fresh hfull =>
    rw [← card_union_neededPages hnodup] at hfull
    exact ⟨0, rfl, .stop (hcard hnodup hlen) (by simp)
      (iff_of_true rfl (.inr ⟨Nat.lt_of_not_le h, hfull⟩))⟩
  | case4 room pages count s h fresh hroom reason t hs =>
    have hle := card_union_le hmax hnodup hfirst hroom
    refine ⟨0, rfl, .stop (hcard hnodup hlen) (fun _ _ _ => hle) ?_⟩
    simp [Nat.not_lt_of_le hle]
  | case5 room pages count s h fresh hroom t hs ih =>
    have hle := card_union_le hmax hnodup hfirst hroom
    have htotal : (pages.toFinset ∪ s.neededPages).card = pages.length + fresh.length :=
      card_union_neededPages hnodup s
    obtain ⟨n, hcount, hcourse⟩ := ih (nodup_fresh_append hnodup s)
      (by rw [List.length_append]; omega) (by simp)
    rw [toFinset_fresh_append] at hcourse
    exact ⟨n + 1, by omega, hcourse.next hs⟩
  | case6 room pages count s h fresh hroom code t hs =>
    exact ⟨1, rfl, .last hs (card_union_le hmax hnodup hfirst hroom) (by simp) (.inl ⟨code, rfl⟩)⟩
  | case7 room pages count s h fresh hroom code t hs =>
    exact ⟨1, rfl, .last hs (card_union_le hmax hnodup hfirst hroom) (by simp)
      (.inr (.inl ⟨code, rfl⟩))⟩
  | case8 room pages count s h fresh hroom t hs =>
    exact ⟨1, rfl, .last hs (card_union_le hmax hnodup hfirst hroom) (by simp)
      (.inr (.inr ⟨rfl, rfl⟩))⟩

/-- Along a whole segment. -/
theorem course_segmentEnd (hmax : 2 ≤ limits.maxSegmentPages) (s : Live) :
    Course limits limits.segmentLimit ∅ 0 s.fresh (s.segmentEnd limits).exit
      (s.segmentEnd limits).count := by
  obtain ⟨n, hcount, hcourse⟩ := course_runSegment hmax limits.segmentLimit [] 0 s.fresh
    List.nodup_nil (Nat.zero_le _) fun _ => rfl
  have hn : (s.segmentEnd limits).count = n := hcount.trans (Nat.zero_add n)
  rw [hn]
  exact hcourse

/-! ### Segments in a plain run -/

/-- What is counted does not depend on the answers of the host so far. -/
theorem Course.remembering {room earlier count : Nat} {before : Finset UInt32} {exit : ExitCode}
    (h : Course limits room before earlier s exit count) (replies : List HostReply) :
    Course limits room before earlier (s.remembering replies) exit count := by
  have hpages : pagesOver neededPages count (s.remembering replies) =
      pagesOver neededPages count s := pagesOver_remembering (fun _ => rfl) count s
  have hneeded :
      ((s.remembering replies).after count).neededPages = (s.after count).neededPages := by
    rw [after_remembering]
    rfl
  have hcycles : ((s.remembering replies).after count).cycles = (s.after count).cycles := by
    rw [after_remembering]
    rfl
  obtain ⟨hcard, hfault, hsplit⟩ := h
  refine ⟨hpages ▸ hcard, ?_, ?_⟩
  · rwa [hpages, hneeded]
  · rwa [Unfinished, lastOutcome_remembering, hpages, hneeded, hcycles]

/-- A segment keeps to the pages of its instructions if they are those that were counted. -/
theorem Course.paged {pages : Live → Finset UInt32} {count : Nat} {exit : ExitCode}
    (h : Course limits limits.segmentLimit ∅ 0 s exit count)
    (hpages : pagesOver pages count s = pagesOver neededPages count s) :
    s.Paged pages limits.segmentLimit limits.maxCycles limits.maxSegmentPages exit count where
  card_le := by simpa [hpages] using h.card_le
  card_le_of_fault := by simpa [hpages] using h.card_le_of_fault
  split_iff hunfinished := by simpa [hpages] using h.split_iff hunfinished

/-- The instructions of a stretch are executed. -/
theorem Stretch.exists_step {exit : ExitCode} {count : Nat} (h : s.Stretch exit count t) {j : Nat}
    (hj : j < count) : ∃ outcome u, (s.after j).step = (.ok outcome, u) := by
  induction h generalizing j with
  | split s | limit s | fault h => exact absurd hj (Nat.not_lt_zero j)
  | last h _ _ =>
    obtain rfl : j = 0 := by omega
    exact ⟨_, _, h⟩
  | next h _ ih =>
    cases j with
    | zero => exact ⟨_, _, h⟩
    | succ j =>
      rw [after_succ h]
      exact ih (Nat.lt_of_succ_lt_succ hj)

theorem params_after (s : Live) (n : Nat) : (s.after n).params = s.params := by
  induction n generalizing s with
  | zero => rfl
  | succ n ih =>
    rw [after, ih]
    rcases hs : s.step with ⟨_ | _, t⟩
    · rw [(step_of_error hs).2]
    · rw [(step_of_ok hs).2]

/-- The segments of a run keep to the pages of their instructions if an instruction that is executed
has those that are counted for it. -/
theorem Runs.paged {index : UInt32} {e : RunEnd} (h : Runs limits index s e)
    (hlimit : limits.segmentLimit < UInt32.size) (hmax : 2 ≤ limits.maxSegmentPages)
    (hreplies : s.world.replies = #[]) {pages : Live → Finset UInt32}
    (hpages : ∀ n outcome t, (s.after n).step = (.ok outcome, t) →
      pages (s.after n) = (s.after n).neededPages)
    {i : Nat} {segment : Segment} (hi : e.segments[i]? = some segment) :
    (s.after (Segment.totalCount (e.segments.take i))).Paged pages limits.segmentLimit
      limits.maxCycles limits.maxSegmentPages segment.exitCode segment.instructionCount.toNat := by
  obtain ⟨index', t, replies, rfl, hstart⟩ := h.exists_start hlimit hi
  have hfresh : s.fresh = s := by
    have hs := s.remembering_fresh
    rwa [hreplies, remembering_nil] at hs
  rw [hfresh] at hstart
  rw [instructionCount_segment hlimit]
  have hcourse := (course_segmentEnd hmax t).remembering replies
  rw [← hstart] at hcourse
  refine hcourse.paged (pagesOver_congr fun j hj => ?_)
  obtain ⟨outcome, u, hstep⟩ := (stretch_segmentEnd limits t).2.exists_step hj
  have hstep' : (s.after (Segment.totalCount (e.segments.take i) + j)).step =
      (.ok outcome, u.remembering replies) := by
    rw [after_add, hstart, after_remembering, step_remembering, hstep]
  rw [← after_add]
  exact hpages _ _ _ hstep'

end Live

/-! ### Sessions -/

namespace Session

/-- The segments of a session of a machine keep to their pages under some options: each of them
starts behind the instructions of those before it. -/
def KeepsToPages (pages : Live → Finset UInt32) (options : ExecutionOptions) (start : Live)
    (x : Session) : Prop :=
  ∀ (i : Nat) (segment : Segment), x.segments[i]? = some segment →
    (start.after (Segment.totalCount (x.segments.take i))).Paged pages options.segmentLimit.toNat
      options.maxCycles.toNat options.maxSegmentPages.toNat segment.exitCode
      segment.instructionCount.toNat

variable {options : ExecutionOptions} {size : Nat} {limits : RunLimits} {start : Live}

theorem keepsToPages_run (hlimits : options.limits start.params size = .ok limits) (index : UInt32)
    (hreplies : start.world.replies = #[]) {pages : Live → Finset UInt32}
    (hpages : ∀ n outcome t, (start.after n).step = (.ok outcome, t) →
      pages (start.after n) = (start.after n).neededPages) :
    (ofRun (start.run limits index)).KeepsToPages pages options start := by
  intro i segment hi
  obtain ⟨hmax, htwo⟩ := ExecutionOptions.maxSegmentPages_of_limits hlimits
  rw [← ExecutionOptions.segmentLimit_of_limits hlimits, ← maxCycles_of_limits hlimits, ← hmax]
  exact (Live.runs_run limits index start).paged (ExecutionOptions.limits_lt hlimits).1 htwo
    hreplies hpages hi

/-- The session of a run keeps to the pages of its instructions, and to those of the words that are
accessed where the parameters are in their ranges. -/
theorem keepsToPages_both (start : Live) (hlimits : options.limits start.params size = .ok limits)
    (index : UInt32) (hreplies : start.world.replies = #[]) :
    (ofRun (start.run limits index)).KeepsToPages Live.instructionPages options start ∧
    (start.params.validate = .ok () →
      (ofRun (start.run limits index)).KeepsToPages Live.accessedPages options start) := by
  refine ⟨keepsToPages_run hlimits index hreplies fun n outcome t hs =>
    (Live.neededPages_of_ok hs).symm, fun hparams => ?_⟩
  refine keepsToPages_run hlimits index hreplies fun n outcome t hs => ?_
  rw [← start.params_after n] at hparams
  rw [Live.accessedPages_of_ok hparams hs, Live.neededPages_of_ok hs]

/-- **The budget of pages.** The segments of every session keep to their pages, by the addresses of
the instructions that they execute. Where the parameters are in their ranges the words that are
accessed lie on the same pages. -/
theorem keepsToPages (options : ExecutionOptions) (input : Bytes) (x : Session) :
    (∀ p : Program, p.execute input options = .ok x →
      x.KeepsToPages Live.instructionPages options (p.live input) ∧
      (p.params.validate = .ok () →
        x.KeepsToPages Live.accessedPages options (p.live input))) ∧
    ∀ c : Continuation, c.resume input options = .ok x →
      x.KeepsToPages Live.instructionPages options (c.live input) ∧
      (c.params.validate = .ok () →
        x.KeepsToPages Live.accessedPages options (c.live input)) := by
  constructor
  · intro p h
    obtain ⟨limits, hlimits, rfl⟩ := Program.execute_eq_ok_iff.mp h
    exact keepsToPages_both (p.live input) hlimits 0 rfl
  · intro c h
    obtain ⟨limits, hlimits, rfl⟩ := Continuation.resume_eq_ok_iff.mp h
    exact keepsToPages_both (c.live input) hlimits c.nextSegmentIndex rfl

end Session

namespace PagingGuest

/-- A program that loads a word from each of two pages. -/
def program : Program :=
  .make ((((Memory.empty {}).storeWord 0x1000 0x00002537).storeWord 0x1004 0x00052283).storeWord
    0x1008 0x40052283) minMemory {} ⟨"", [], 0⟩

/-- The options under which the program is run: a segment has room for two pages. -/
def options : ExecutionOptions := { segmentLimit := 8, maxCycles := 100, maxSegmentPages := 2 }

/-- The limits that the options set. -/
def limits : RunLimits := ⟨8, 100, 2, Nat.succ_pos 7⟩

theorem limits_options : options.limits program.params 0 = .ok limits := rfl

end PagingGuest

open PagingGuest in
/-- The program is split off before its second load, which would need a third page. -/
theorem Session.keepsToPages_paging :
    ∃ x, program.execute [] options = .ok x ∧
      x.KeepsToPages Live.instructionPages options (program.live []) ∧
      x.KeepsToPages Live.accessedPages options (program.live []) ∧
      ((program.live []).segmentEnd limits).exit = .systemSplit ∧
      ((program.live []).segmentEnd limits).count = 2 ∧
      (Live.pagesOver Live.accessedPages 2 (program.live [])).card = 2 := by
  have hexecute : program.execute [] options = .ok (.ofRun ((program.live []).run limits 0)) :=
    Program.execute_eq_ok_iff.mpr ⟨limits, limits_options, rfl⟩
  obtain ⟨hinstruction, haccessed⟩ := (Session.keepsToPages options [] _).1 program hexecute
  exact ⟨_, hexecute, hinstruction, haccessed (Params.validate_eq_ok_iff.mpr (by decide)),
    by decide +kernel, by decide +kernel, by decide +kernel⟩

end ReplayVM
