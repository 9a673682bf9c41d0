import ReplayVM.Proofs.SegmentSeries
import ReplayVM.Proofs.Segmentation

/-!
# Completeness of sessions

The segments of a session, and of sessions in a row of which each continues the machine that the one
before left paused, are one series from the initial state of the program. So all of them can be
proven, their receipts are accepted and can be joined under either strategy, and the joined receipt
states where the last session ended and how long the sessions were. It verifies as a session of the
program exactly if the last session halted.

## Main definitions

* `Program.Sessions`: sessions in a row.
* `SuccinctReceipt.Summarizes`: a receipt that states what sessions in a row amount to.

## Main results

* `Program.Sessions.exists_series`: the segments of sessions in a row are one series.
* `Program.sessions_provable`: sessions in a row are proven, and summarized by one receipt.
-/

namespace ReplayVM

/-! ### Runs of sound machines -/

namespace Live

variable {s : Live} {limits : RunLimits}

/-- The segments of a run of a sound machine form a series, and its summary counts them. -/
theorem Sound.run (h : s.Sound) (index : UInt32)
    (hlimit : limits.segmentLimit ≤ s.params.maxSegmentCycles) (hcycles : s.cycles = 0)
    (hlen : index.toNat + (s.run limits index).segments.length < UInt32.size) :
    let e := s.run limits index
    e.live.Sound ∧ e.live.params = s.params ∧
      e.nextIndex.toNat = index.toNat + e.segments.length ∧
      (Session.ofRun e).info.segmentCount.toNat = e.segments.length ∧
      (Session.ofRun e).endCommitment = some e.live.state.commitment ∧
      Segment.Series s.params index.toNat s.state e.segments e.exit e.live
        (Session.ofRun e).info.totalCycles.toNat := by
  obtain ⟨segments, -, hsegments, hnext, hsound, hparams, hseries⟩ :=
    series_runFrom limits #[] index s h hlimit
  change (s.run limits index).segments = _ at hsegments
  change (s.run limits index).nextIndex = _ at hnext
  change (s.run limits index).live.Sound at hsound
  change (s.run limits index).live.params = _ at hparams
  change _ → ∃ count, (s.run limits index).live.cycles = s.cycles + count ∧
    Segment.Series _ _ _ _ (s.run limits index).exit (s.run limits index).live count at hseries
  generalize s.run limits index = e at *
  obtain rfl : e.segments = segments := hsegments
  obtain ⟨count, hcount, hseries⟩ := hseries (Nat.le_of_lt hlen)
  have hlen' : e.segments.length.toUInt32.toNat = e.segments.length :=
    UInt32.toNat_ofNat_of_lt' (Nat.lt_of_le_of_lt (Nat.le_add_left _ _) hlen)
  have htotal : (Session.ofRun e).info.totalCycles.toNat = count := by
    have hsum := sum_toNat_le Segment.instructionCount e.segments
    rw [hseries.count_eq] at hsum
    change e.live.cycles.toUInt64.toNat = count
    rw [hcount, hcycles, Nat.zero_add]
    refine UInt64.toNat_ofNat_of_lt' (Nat.lt_of_le_of_lt hsum ?_)
    exact Nat.lt_of_le_of_lt (Nat.mul_le_mul_right _ (Nat.le_of_lt
      (Nat.lt_of_le_of_lt (Nat.le_add_left _ _) hlen))) (by decide)
  refine ⟨hsound, hparams, ?_, hlen', hseries.endCommitment_eq, htotal ▸ hseries⟩
  rw [hnext, toNat_add_of_lt (hlen'.symm ▸ hlen), hlen']

end Live

/-! ### Options -/

/-- Accepted options do not let segments become longer than the parameters do. -/
theorem ExecutionOptions.segmentLimit_le {o : ExecutionOptions} {params : Params} {size : Nat}
    {limits : RunLimits} (h : o.limits params size = .ok limits) :
    limits.segmentLimit ≤ params.maxSegmentCycles := by
  unfold ExecutionOptions.limits at h
  split_ifs at h with hlimit
  rw [← Except.ok.inj h]
  exact Nat.le_of_not_lt fun hlt => hlimit (.inr hlt)

theorem Program.execute_eq_ok_iff {p : Program} {input : Bytes} {options : ExecutionOptions}
    {x : Session} : p.execute input options = .ok x ↔
      ∃ limits, options.limits p.params input.length = .ok limits ∧
        .ofRun ((p.live input).run limits 0) = x := by
  rw [execute, bind_eq_ok_iff]
  simp only [pure, Except.pure, Except.ok.injEq]

theorem Continuation.resume_eq_ok_iff {c : Continuation} {input : Bytes}
    {options : ExecutionOptions} {x : Session} : c.resume input options = .ok x ↔
      ∃ limits, options.limits c.params input.length = .ok limits ∧
        .ofRun ((c.live input).run limits c.nextSegmentIndex) = x := by
  rw [resume, bind_eq_ok_iff]
  simp only [pure, Except.pure, Except.ok.injEq]

/-- A session has at most one segment more than its options allow cycles. -/
theorem Program.length_segments_le {p : Program} {input : Bytes} {options : ExecutionOptions}
    {x : Session} (h : p.execute input options = .ok x) :
    x.segments.length ≤ options.maxCycles.toNat + 1 := by
  obtain ⟨limits, hlimits, rfl⟩ := execute_eq_ok_iff.mp h
  have hlen := Live.length_segments_runFrom_le limits #[] 0 (p.live input)
  rw [Session.maxCycles_of_limits hlimits] at hlen
  change ((p.live input).run limits 0).segments.length ≤ _
  exact Nat.le_trans hlen (by simp)

theorem Continuation.length_segments_le {c : Continuation} {input : Bytes}
    {options : ExecutionOptions} {x : Session} (h : c.resume input options = .ok x) :
    x.segments.length ≤ options.maxCycles.toNat + 1 := by
  obtain ⟨limits, hlimits, rfl⟩ := resume_eq_ok_iff.mp h
  have hlen := Live.length_segments_runFrom_le limits #[] c.nextSegmentIndex (c.live input)
  rw [Session.maxCycles_of_limits hlimits] at hlen
  change ((c.live input).run limits c.nextSegmentIndex).segments.length ≤ _
  exact Nat.le_trans hlen (by simp)

/-! ### Sessions in a row -/

/-- Sessions in a row, those before the last one and the last one: a program is run, and each
further session continues the machine that the one before left paused. -/
inductive Program.Sessions (p : Program) : List Session → Session → Prop where
  | execute {input : Bytes} {options : ExecutionOptions} {x : Session}
      (h : p.execute input options = .ok x) : Sessions p [] x
  | resume {earlier : List Session} {x y : Session} {c : Continuation} {input : Bytes}
      {options : ExecutionOptions} (rest : Sessions p earlier x) (hc : x.continuation = some c)
      (h : c.resume input options = .ok y) : Sessions p (earlier ++ [x]) y

/-- The segments of some sessions. -/
def Session.allSegments (xs : List Session) : List Segment := xs.flatMap segments

/-- The number of segments that some sessions report. -/
def Session.totalSegments (xs : List Session) : Nat :=
  (xs.map fun x => x.info.segmentCount.toNat).sum

/-- The number of instructions that some sessions report. -/
def Session.totalCycles (xs : List Session) : Nat := (xs.map fun x => x.info.totalCycles.toNat).sum

theorem Session.totalSegments_concat (xs : List Session) (x : Session) :
    totalSegments (xs ++ [x]) = totalSegments xs + x.info.segmentCount.toNat := by
  simp [totalSegments]

theorem Session.totalCycles_concat (xs : List Session) (x : Session) :
    totalCycles (xs ++ [x]) = totalCycles xs + x.info.totalCycles.toNat := by
  simp [totalCycles]

/-- A program that passes, over a well-formed memory, starts with a sound machine. -/
theorem Program.sound_live {p : Program} (hp : p.checkIntegrity = .ok ()) (hm : p.memory.WellFormed)
    (input : Bytes) : (p.live input).Sound := by
  obtain ⟨hvalid, -, ⟨hpage, hbits⟩, -⟩ := checkIntegrity_eq_ok_iff.mp hp
  exact ⟨hvalid, ⟨hm, hpage, hbits⟩, rfl⟩

/-- The continuation of a sound machine holds a sound machine, which starts in the same state. -/
theorem Live.Sound.live_continuation {s : Live} (h : s.Sound) (index : UInt32) (input : Bytes) :
    (Continuation.live ⟨s.params, s.machine.cpu, s.world.memory, s.machine.output, s.journal.toList,
      index⟩ input).Sound :=
  ⟨h.params_valid, h.memory, h.journal⟩

/-- A run that leaves a continuation ended in a pause, and the continuation holds the machine in
which it ended. -/
theorem Session.continuation_ofRun {e : Live.RunEnd} {c : Continuation}
    (h : (ofRun e).continuation = some c) : (∃ code, e.exit = .paused code) ∧
      ⟨e.live.params, e.live.machine.cpu, e.live.world.memory, e.live.machine.output,
        e.live.journal.toList, e.nextIndex⟩ = c := by
  simp only [ofRun, continuationOf] at h
  cases hexit : e.exit with
  | paused code =>
    rw [hexit] at h
    exact ⟨⟨code, rfl⟩, Option.some.inj h⟩
  | _ => simp [hexit] at h

/-- The segments of sessions in a row are one series from the initial state of the program, unless
their indices run out. -/
theorem Program.Sessions.exists_series {p : Program} (hp : p.checkIntegrity = .ok ())
    (hm : p.memory.WellFormed) {earlier : List Session} {last : Session}
    (h : p.Sessions earlier last)
    (hlen : (Session.allSegments (earlier ++ [last])).length < UInt32.size) :
    ∃ e, last = .ofRun e ∧ e.live.Sound ∧ e.live.params = p.params ∧
      e.nextIndex.toNat = (Session.allSegments (earlier ++ [last])).length ∧
      Session.totalSegments (earlier ++ [last]) =
        (Session.allSegments (earlier ++ [last])).length ∧
      last.endCommitment = some e.live.state.commitment ∧
      Segment.Series p.params 0 p.initialState (Session.allSegments (earlier ++ [last])) e.exit
        e.live (Session.totalCycles (earlier ++ [last])) := by
  induction h with
  | @execute input options x h =>
    obtain ⟨limits, hlimits, rfl⟩ := execute_eq_ok_iff.mp h
    have hsegments : Session.allSegments ([] ++ [.ofRun ((p.live input).run limits 0)]) =
        ((p.live input).run limits 0).segments := by
      simp [Session.allSegments, Session.ofRun]
    rw [hsegments] at hlen ⊢
    obtain ⟨hsound, hparams, hnext, hcount, hend, hseries⟩ := (p.sound_live hp hm input).run
      0 (ExecutionOptions.segmentLimit_le hlimits) rfl
      (by rw [UInt32.toNat_zero, Nat.zero_add]; exact hlen)
    rw [UInt32.toNat_zero, Nat.zero_add] at hnext
    refine ⟨_, rfl, hsound, hparams, hnext, ?_, hend, ?_⟩
    · simpa [Session.totalSegments] using hcount
    · have htotal : Session.totalCycles ([] ++ [.ofRun ((p.live input).run limits 0)]) =
          (Session.ofRun ((p.live input).run limits 0)).info.totalCycles.toNat := by
        simp [Session.totalCycles]
      rw [htotal]
      exact hseries
  | @resume earlier x y c input options rest hc h ih =>
    have hall : Session.allSegments (earlier ++ [x] ++ [y]) =
        Session.allSegments (earlier ++ [x]) ++ y.segments := by
      simp [Session.allSegments]
    rw [hall] at hlen ⊢
    rw [List.length_append] at hlen
    obtain ⟨e, rfl, hsound, hparams, hnext, hcount, -, hseries⟩ := ih (by omega)
    obtain ⟨limits, hlimits, rfl⟩ := Continuation.resume_eq_ok_iff.mp h
    obtain ⟨⟨code, hexit⟩, rfl⟩ := Session.continuation_ofRun hc
    obtain ⟨hsound', hparams', hnext', hcount', hend', hseries'⟩ :=
      (hsound.live_continuation e.nextIndex input).run e.nextIndex
        (ExecutionOptions.segmentLimit_le hlimits) rfl (by rw [hnext]; exact hlen)
    refine ⟨_, rfl, hsound', hparams'.trans hparams, ?_, ?_, hend', ?_⟩
    · rw [hnext', hnext, List.length_append]
      rfl
    · rw [Session.totalSegments_concat, hcount, hcount', List.length_append]
      rfl
    · rw [hnext, ← Nat.zero_add (List.length _)] at hseries'
      rw [← hparams] at hseries
      rw [Session.totalCycles_concat, ← hparams]
      exact hseries.append hseries' (by rw [hexit]; rfl)

/-! ### A guest that pauses -/

namespace PausingGuest

/-- A program that pauses at its second instruction, with nothing behind it. -/
def program : Program :=
  .make (((Memory.empty {}).storeWord 0x1000 0x00100893).storeWord 0x1004 0x73) minMemory {}
    ⟨"", [], 0⟩

/-- The options under which the program is run. -/
def options : ExecutionOptions := { segmentLimit := 8, maxCycles := 100 }

/-- The limits that the options set. -/
def limits : RunLimits := ⟨8, 100, 1024, by decide⟩

theorem limits_options : options.limits {} 0 = .ok limits := rfl

theorem checkIntegrity_program : program.checkIntegrity = .ok () :=
  Program.checkIntegrity_make _ _ (Params.validate_eq_ok_iff.mpr (by decide)) ⟨rfl, rfl⟩

theorem wellFormed_memory : program.memory.WellFormed :=
  ((Memory.wellFormed_empty (Params.validate_eq_ok_iff.mpr (by decide))).storeWord
    ⟨rfl, by decide⟩ _).storeWord ⟨rfl, by decide⟩ _

theorem exit_segmentEnd : ((program.live []).segmentEnd limits).exit = .paused 0 := by
  decide +kernel

/-- The program pauses. -/
theorem exitCode_of_execute {x : Session} (h : program.execute [] options = .ok x) :
    x.info.exitCode = .paused 0 := by
  obtain ⟨limits', hlimits, rfl⟩ := Program.execute_eq_ok_iff.mp h
  obtain rfl : limits = limits' := Except.ok.inj (limits_options.symm.trans hlimits)
  refine Eq.trans (Live.exit_run ?_) exit_segmentEnd
  rw [exit_segmentEnd]
  simp

end PausingGuest

/-! ### Receipts of sessions -/

/-- A receipt that states what sessions of a program in a row amount to: where they start and how
the last one ended, with its journal, and how long they were. It verifies as a session of the
program with the stated journal if the last one halted, and not otherwise. -/
structure SuccinctReceipt.Summarizes (r : SuccinctReceipt) (p : Program) (earlier : List Session)
    (last : Session) : Prop where
  claim_eq : ∃ stop, last.endCommitment = some stop ∧ r.claim =
    ⟨p.configDigest, p.entryState, stop, ⟨last.info.exitCode, journalDigest last.info.journal⟩⟩
  first_eq : r.span.first = 0
  count_eq : r.span.count.toNat = Session.totalSegments (earlier ++ [last])
  cycles_eq : r.span.cycles.toNat = Session.totalCycles (earlier ++ [last])
  verifies_iff : ∀ output, r.verifySessionWith ⟨true⟩ p output = true ↔
    (∃ code, last.info.exitCode = .halted code) ∧ output = r.claim.exit.outputDigest

/-- A receipt that covers the receipts of the segments of sessions in a row, and that is accepted,
states what the sessions amount to. -/
theorem Program.Sessions.summarizes {p : Program} (hp : p.checkIntegrity = .ok ())
    (hm : p.memory.WellFormed) {earlier : List Session} {last : Session}
    (h : p.Sessions earlier last)
    (hlen : (Session.allSegments (earlier ++ [last])).length < UInt32.size)
    {receipts : List SegmentReceipt} (hclaims : receipts.map SegmentReceipt.claim =
      (Session.allSegments (earlier ++ [last])).map Segment.claim)
    {r : SuccinctReceipt} (hcovers : r.Covers receipts) (hr : r.verifyWith ⟨true⟩ = .ok ()) :
    r.Summarizes p earlier last := by
  obtain ⟨-, hconfig, -, hentry⟩ := checkIntegrity_eq_ok_iff.mp hp
  obtain ⟨e, rfl, hsound, -, -, hcount, hend, hseries⟩ := h.exists_series hp hm hlen
  obtain ⟨hclaim, hfirst, hspan, hcycles⟩ := hseries.claim_eq_of_covers hclaims hcovers
  rw [← hconfig, ← hentry] at hclaim
  have hjournal : e.live.machine.output.digest = journalDigest e.live.journal.toList :=
    congrArg Output.digest hsound.journal
  refine ⟨⟨_, hend, hjournal ▸ hclaim⟩, UInt32.toNat_inj.mp hfirst, hspan.trans hcount.symm,
    hcycles, fun output => ?_⟩
  rw [SuccinctReceipt.verifySessionWith_eq_true_iff, hclaim]
  constructor
  · rintro ⟨-, -, -, rfl, hcode⟩
    exact ⟨hcode, rfl⟩
  · rintro ⟨hcode, rfl⟩
    exact ⟨rfl, hr, rfl, rfl, hcode⟩

/-- Sessions of a program over a well-formed memory, as loaded programs and programs that were read
have it, are proven. A run starts under every options that are accepted, and so does the
continuation of a pause. When sessions in a row have fewer segments than there are indices, every
segment is proven, every receipt is accepted, and under either strategy the receipts are joined
into one that states what the sessions amount to. -/
theorem Program.sessions_provable {p : Program} (hp : p.checkIntegrity = .ok ())
    (hversion : p.params.recursionVersion = 1) (hm : p.memory.WellFormed) :
    (∀ input options limits, options.limits p.params input.length = .ok limits →
      ∃ x, p.Sessions [] x ∧ p.execute input options = .ok x) ∧
    (∀ earlier last c input options limits, p.Sessions earlier last → last.continuation = some c →
      options.limits c.params input.length = .ok limits →
      ∃ x, p.Sessions (earlier ++ [last]) x ∧ c.resume input options = .ok x) ∧
    ∀ earlier last, p.Sessions earlier last →
      (Session.allSegments (earlier ++ [last])).length < UInt32.size →
      ∃ receipts, (Session.allSegments (earlier ++ [last])).mapM Segment.proveFully = .ok receipts ∧
        (∀ receipt ∈ receipts, receipt.verify = .ok ()) ∧
        ∀ strategy, ∃ r, SegmentReceipt.joinAll strategy receipts = .ok r ∧
          r.Summarizes p earlier last := by
  refine ⟨?_, ?_, ?_⟩
  · intro input options limits hlimits
    have h := execute_eq_ok_iff.mpr ⟨limits, hlimits, rfl⟩
    exact ⟨_, .execute h, h⟩
  · intro earlier last c input options limits hsessions hc hlimits
    have h := Continuation.resume_eq_ok_iff.mpr ⟨limits, hlimits, rfl⟩
    exact ⟨_, .resume hsessions hc h, h⟩
  · intro earlier last hsessions hlen
    obtain ⟨e, -, -, -, -, -, -, hseries⟩ := hsessions.exists_series hp hm hlen
    obtain ⟨receipts, hprove, hclaims, hall⟩ := hseries.exists_receipts hversion
    have hjoinable := hseries.joinable hlen hclaims fun r hr => (hall r hr).2
    refine ⟨receipts, hprove, fun r hr => (hall r hr).1, fun strategy => ?_⟩
    obtain ⟨r, hr, hcovers, hverify⟩ := SegmentReceipt.exists_joinAll hjoinable
      (hseries.receipts_ne_nil hclaims) strategy
    exact ⟨r, hr, hsessions.summarizes hp hm hlen hclaims hcovers hverify⟩

open PausingGuest in
/-- The program pauses, is resumed, and both sessions are summarized by one receipt. -/
theorem Program.sessions_provable_pausing :
    ∃ x c y, program.execute [] options = .ok x ∧ x.continuation = some c ∧
      c.resume [] options = .ok y ∧
      ∃ receipts, (Session.allSegments [x, y]).mapM Segment.proveFully = .ok receipts ∧
        (∀ receipt ∈ receipts, receipt.verify = .ok ()) ∧
        ∀ strategy, ∃ r, SegmentReceipt.joinAll strategy receipts = .ok r ∧
          r.Summarizes program [x] y := by
  obtain ⟨hexecute, hresume, hprove⟩ :=
    sessions_provable checkIntegrity_program rfl wellFormed_memory
  obtain ⟨x, hx, hxrun⟩ := hexecute [] options limits limits_options
  have hxlen : x.segments.length ≤ 101 := length_segments_le hxrun
  obtain ⟨e, rfl, -, hparams, -⟩ := hx.exists_series checkIntegrity_program wellFormed_memory (by
    simpa [Session.allSegments] using Nat.lt_of_le_of_lt hxlen (by decide))
  have hexit : e.exit = .paused 0 := exitCode_of_execute hxrun
  obtain ⟨c, hc, hcparams⟩ : ∃ c, (Session.ofRun e).continuation = some c ∧ c.params = {} := by
    simp only [Session.ofRun, Session.continuationOf, hexit, hparams, Option.some.injEq,
      exists_eq_left']
    rfl
  obtain ⟨y, hy, hyrun⟩ := hresume [] (.ofRun e) c [] options limits hx hc
    (by rw [hcparams]; exact limits_options)
  have hylen : y.segments.length ≤ 101 := Continuation.length_segments_le hyrun
  refine ⟨.ofRun e, c, y, hxrun, hc, hyrun, hprove _ _ hy ?_⟩
  have hlen : (Session.allSegments ([] ++ [.ofRun e] ++ [y])).length =
      (Session.ofRun e).segments.length + y.segments.length := by
    simp [Session.allSegments]
  have hsize : UInt32.size = 4294967296 := rfl
  omega

end ReplayVM
