import ReplayVM.Proofs.Runs
import ReplayVM.Proofs.SessionCompleteness

/-!
# Chains of sessions

Sessions in a row are one chain of segments. The first segment starts in the initial state of the
program, a pause is a boundary like any other, and what a session and its continuation report is
what the segments state. This does not depend on the memory of the program being well formed, and
it says nothing about proofs: it is what the executor leaves.

## Main definitions

* `Session.Coherent`: a session whose summary and continuation belong to its segments.
* `Program.Chain`: sessions that are coherent and follow each other.

## Main results

* `Session.coherent_ofRun`: the session of a run is coherent.
* `Program.sessions_chain`: sessions in a row are a chain.
-/

namespace ReplayVM

/-! ### Single sessions -/

/-- A session whose segments but the last are split off, and whose summary and continuation are
those of its segments. -/
structure Session.Coherent (x : Session) : Prop where
  ne_nil : x.segments ≠ []
  split_of_mem : ∀ s ∈ x.segments.dropLast, s.exitCode = .systemSplit
  last_eq : ∀ last ∈ x.segments.getLast?, last.exitCode ≠ .systemSplit ∧
    last.exitCode = x.info.exitCode ∧ last.outputDigest = x.info.outputDigest
  segmentCount_eq : x.info.segmentCount.toNat = x.segments.length
  totalCycles_eq : x.info.totalCycles.toNat =
    (x.segments.map fun s => s.instructionCount.toNat).sum
  paused_iff : (∃ c, x.continuation = some c) ↔ ∃ code, x.info.exitCode = .paused code
  continuation_eq : ∀ c ∈ x.continuation, ∀ last ∈ x.segments.getLast?,
    c.commitment = last.endCommitment ∧ c.nextSegmentIndex.toNat = last.index.toNat + 1

/-- The segments that accepted options allow can state their length, and so can the run. -/
theorem ExecutionOptions.limits_lt {o : ExecutionOptions} {params : Params} {size : Nat}
    {limits : RunLimits} (h : o.limits params size = .ok limits) :
    limits.segmentLimit < UInt32.size ∧ limits.maxCycles < UInt64.size := by
  unfold ExecutionOptions.limits at h
  split_ifs at h
  rw [← Except.ok.inj h]
  exact ⟨UInt32.toNat_lt_size _, UInt64.toNat_lt_size _⟩

variable {limits : RunLimits} {index : UInt32} {s : Live} {e : Live.RunEnd}

/-- The index behind a run, unless the indices run out. -/
theorem Live.Runs.toNat_nextIndex (h : Runs limits index s e)
    (hlen : index.toNat + e.segments.length < UInt32.size) :
    e.nextIndex.toNat = index.toNat + e.segments.length := by
  have hlen' : e.segments.length.toUInt32.toNat = e.segments.length :=
    UInt32.toNat_ofNat_of_lt' (Nat.lt_of_le_of_lt (Nat.le_add_left _ _) hlen)
  rw [h.nextIndex_eq, toNat_add_of_lt (hlen'.symm ▸ hlen), hlen']

/-- A run leaves a continuation if it ends in a pause. -/
theorem Session.exists_continuation_iff (e : Live.RunEnd) :
    (∃ c, (ofRun e).continuation = some c) ↔ ∃ code, e.exit = .paused code := by
  constructor
  · rintro ⟨c, hc⟩
    exact (continuation_ofRun hc).1
  · rintro ⟨code, hcode⟩
    simp [ofRun, continuationOf, hcode]

/-- The session of a run is coherent. -/
theorem Session.coherent_ofRun (h : Live.Runs limits index s e) (hs : s.cycles = 0)
    (hsegment : limits.segmentLimit < UInt32.size) (hmax : limits.maxCycles < UInt64.size)
    (hlen : index.toNat + e.segments.length < UInt32.size) : (ofRun e).Coherent := by
  obtain ⟨init, last, hsegments, hinit, hlast, hsplit, houtput⟩ := h.exits
  have hgetLast : (ofRun e).segments.getLast? = some last := by simp [ofRun, hsegments]
  have hconsecutive := h.consecutive (Nat.le_of_lt hlen)
  have hcycles := h.cycles_eq hsegment
  refine ⟨by simp [ofRun, hsegments], ?_, ?_, ?_, ?_, exists_continuation_iff e, ?_⟩
  · simpa [ofRun, hsegments] using hinit
  · rw [hgetLast]
    rintro x ⟨⟩
    exact ⟨hlast ▸ hsplit, hlast, houtput⟩
  · exact UInt32.toNat_ofNat_of_lt' (Nat.lt_of_le_of_lt (Nat.le_add_left _ _) hlen)
  · rw [hs, Nat.zero_add] at hcycles
    exact (UInt64.toNat_ofNat_of_lt' (Nat.lt_of_le_of_lt
      (h.cycles_le (hs ▸ Nat.zero_le _)) hmax)).trans hcycles
  · intro c hc
    rw [hgetLast]
    rintro x ⟨⟩
    obtain ⟨-, rfl⟩ := continuation_ofRun hc
    have hstop := hconsecutive.stop_eq last (by simp [hsegments])
    have hindex := hconsecutive.index_eq init.length last (by simp [hsegments])
    refine ⟨hstop.symm, ?_⟩
    have hnext := h.toNat_nextIndex hlen
    rw [hsegments, List.length_append, List.length_singleton] at hnext
    exact hnext.trans (by rw [hindex, Nat.add_assoc])

/-! ### Sessions in a row -/

/-- Coherent sessions that follow each other from the initial state of a program on: their segments
are numbered from zero and meet, and the journal grows. -/
structure Program.Chain (p : Program) (xs : List Session) : Prop where
  coherent : ∀ x ∈ xs, x.Coherent
  consecutive : ∃ stop, Segment.Consecutive 0 p.entryState (Session.allSegments xs) stop
  journals : xs.IsChain fun x y => x.info.journal <+: y.info.journal

/-- Sessions in a row are a chain, which the machine at their end continues. -/
theorem Program.Sessions.exists_chain {p : Program} (hp : p.checkIntegrity = .ok ())
    {earlier : List Session} {last : Session} (h : p.Sessions earlier last)
    (hlen : (Session.allSegments (earlier ++ [last])).length < UInt32.size) :
    (∃ e, last = .ofRun e ∧
      e.nextIndex.toNat = (Session.allSegments (earlier ++ [last])).length ∧
      Segment.Consecutive 0 p.entryState (Session.allSegments (earlier ++ [last]))
        e.live.state.commitment) ∧
    (∀ x ∈ earlier ++ [last], x.Coherent) ∧
    (earlier ++ [last]).IsChain fun x y => x.info.journal <+: y.info.journal := by
  -- The run behind the last session is kept, because the continuation is made from where it ends.
  induction h with
  | @execute input options x h =>
    obtain ⟨limits, hlimits, rfl⟩ := execute_eq_ok_iff.mp h
    obtain ⟨hsegment, hmax⟩ := ExecutionOptions.limits_lt hlimits
    obtain ⟨-, -, -, hentry⟩ := checkIntegrity_eq_ok_iff.mp hp
    have hruns := Live.runs_run limits 0 (p.live input)
    generalize (p.live input).run limits 0 = e at *
    have hall : Session.allSegments ([] ++ [.ofRun e]) = e.segments := by
      simp [Session.allSegments, Session.ofRun]
    rw [hall] at hlen ⊢
    have hlen' : (0 : UInt32).toNat + e.segments.length < UInt32.size := by
      rwa [UInt32.toNat_zero, Nat.zero_add]
    have hnext := hruns.toNat_nextIndex hlen'
    rw [UInt32.toNat_zero, Nat.zero_add] at hnext
    have hstart : (p.live input).state.commitment = p.entryState := hentry.symm
    have hconsecutive := hruns.consecutive (Nat.le_of_lt hlen')
    rw [hstart, UInt32.toNat_zero] at hconsecutive
    refine ⟨⟨e, rfl, hnext, hconsecutive⟩, ?_, by simp⟩
    simpa using Session.coherent_ofRun hruns rfl hsegment hmax hlen'
  | @resume earlier x y c input options rest hc h ih =>
    have hall : Session.allSegments (earlier ++ [x] ++ [y]) =
        Session.allSegments (earlier ++ [x]) ++ y.segments := by
      simp [Session.allSegments]
    rw [hall] at hlen ⊢
    rw [List.length_append] at hlen
    obtain ⟨⟨e, rfl, hnext, hconsecutive⟩, hcoherent, hjournals⟩ := ih (by omega)
    obtain ⟨limits, hlimits, rfl⟩ := Continuation.resume_eq_ok_iff.mp h
    obtain ⟨hsegment, hmax⟩ := ExecutionOptions.limits_lt hlimits
    obtain ⟨-, rfl⟩ := Session.continuation_ofRun hc
    have hruns := Live.runs_run limits e.nextIndex (Continuation.live ⟨e.live.params,
      e.live.machine.cpu, e.live.world.memory, e.live.machine.output, e.live.journal.toList,
      e.nextIndex⟩ input)
    generalize Live.run limits e.nextIndex _ = e' at *
    have hlen' : e.nextIndex.toNat + e'.segments.length < UInt32.size := by
      rw [hnext]
      exact hlen
    have hrest := hruns.consecutive (Nat.le_of_lt hlen')
    rw [hnext, ← Nat.zero_add (List.length _)] at hrest
    refine ⟨⟨e', rfl, ?_, hconsecutive.append hrest⟩, ?_, ?_⟩
    · rw [hruns.toNat_nextIndex hlen', hnext, List.length_append]
      rfl
    · exact List.forall_mem_append.mpr ⟨hcoherent, by
        simpa using Session.coherent_ofRun hruns rfl hsegment hmax hlen'⟩
    · refine List.isChain_append.mpr ⟨hjournals, by simp, ?_⟩
      have hprefix := hruns.prefix_journal
      simpa [Continuation.live, Session.ofRun] using hprefix

/-- A program runs under all options that are accepted. -/
theorem Program.exists_execute (p : Program) {input : Bytes} {options : ExecutionOptions}
    {limits : RunLimits} (h : options.limits p.params input.length = .ok limits) :
    ∃ x, p.execute input options = .ok x :=
  ⟨_, execute_eq_ok_iff.mpr ⟨limits, h, rfl⟩⟩

/-- A paused machine is resumed under all options that are accepted. -/
theorem Continuation.exists_resume (c : Continuation) {input : Bytes} {options : ExecutionOptions}
    {limits : RunLimits} (h : options.limits c.params input.length = .ok limits) :
    ∃ x, c.resume input options = .ok x :=
  ⟨_, resume_eq_ok_iff.mpr ⟨limits, h, rfl⟩⟩

/-- The program that pauses can be resumed. -/
theorem PausingGuest.exists_sessions : ∃ x c y, program.execute [] options = .ok x ∧
    x.continuation = some c ∧ c.resume [] options = .ok y ∧
    (Session.allSegments [x, y]).length < UInt32.size := by
  obtain ⟨x, hx⟩ : ∃ x, program.execute [] options = .ok x :=
    program.exists_execute limits_options
  have hexit := exitCode_of_execute hx
  have hxlen : x.segments.length ≤ 101 := Program.length_segments_le hx
  obtain ⟨limits', -, rfl⟩ := Program.execute_eq_ok_iff.mp hx
  obtain ⟨c, hc⟩ := (Session.exists_continuation_iff _).mpr ⟨0, hexit⟩
  have hparams : c.params = {} := by
    rw [← (Session.continuation_ofRun hc).2]
    exact (Live.runs_run limits' 0 (program.live [])).params_eq
  obtain ⟨y, hy⟩ : ∃ y, c.resume [] options = .ok y :=
    c.exists_resume (hparams ▸ limits_options)
  have hylen : y.segments.length ≤ 101 := Continuation.length_segments_le hy
  refine ⟨_, c, y, hx, hc, hy, ?_⟩
  have hsize : UInt32.size = 4294967296 := rfl
  simp only [Session.allSegments, List.flatMap_cons, List.flatMap_nil, List.append_nil,
    List.length_append]
  omega

/-- **Chains of sessions.** A program that passes runs under all options that are accepted, and so
does the continuation of a pause. As long as their segments are fewer than there are indices,
sessions in a row are a chain: every session is coherent, the segments of all of them follow each
other from the initial state on, and each journal continues the one before. -/
theorem Program.sessions_chain {p : Program} (hp : p.checkIntegrity = .ok ()) :
    (∀ input options limits, options.limits p.params input.length = .ok limits →
      ∃ x, p.Sessions [] x ∧ p.execute input options = .ok x) ∧
    (∀ earlier last c input options limits, p.Sessions earlier last → last.continuation = some c →
      options.limits c.params input.length = .ok limits →
      ∃ x, p.Sessions (earlier ++ [last]) x ∧ c.resume input options = .ok x) ∧
    ∀ earlier last, p.Sessions earlier last →
      (Session.allSegments (earlier ++ [last])).length < UInt32.size →
      p.Chain (earlier ++ [last]) := by
  refine ⟨?_, ?_, ?_⟩
  · intro input options limits hlimits
    obtain ⟨x, hx⟩ := p.exists_execute hlimits
    exact ⟨x, .execute hx, hx⟩
  · intro earlier last c input options limits hsessions hc hlimits
    obtain ⟨x, hx⟩ := c.exists_resume hlimits
    exact ⟨x, .resume hsessions hc hx, hx⟩
  · intro earlier last hsessions hlen
    obtain ⟨⟨e, -, -, hconsecutive⟩, hcoherent, hjournals⟩ := hsessions.exists_chain hp hlen
    exact ⟨hcoherent, ⟨_, hconsecutive⟩, hjournals⟩

open PausingGuest in
/-- The session of a program that pauses and the session that resumes it are a chain. -/
theorem Program.sessions_chain_pausing : program.checkIntegrity = .ok () ∧
    ∃ x c y, program.execute [] options = .ok x ∧ x.continuation = some c ∧
      c.resume [] options = .ok y ∧ program.Chain [x, y] := by
  obtain ⟨x, c, y, hx, hc, hy, hlen⟩ := exists_sessions
  exact ⟨checkIntegrity_program, x, c, y, hx, hc, hy,
    (sessions_chain checkIntegrity_program).2.2 [x] y (.resume (.execute hx) hc hy) hlen⟩

end ReplayVM
