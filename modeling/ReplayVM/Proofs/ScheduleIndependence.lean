import ReplayVM.Proofs.SessionCompleteness
import ReplayVM.Proofs.SessionEndings
import ReplayVM.Proofs.SessionTracking

/-!
# Independence of the schedule

A session prover gives what proving the segments one after the other and reducing the receipts
gives, whatever the schedule.

## Main definitions

* `Segment.ReducesTo`: the receipt of segments that are proven one after the other.
* `SessionProver.Idle`, `SessionProver.record`: a prover, and the history of the session that it
  runs under a schedule.

## Main results

* `ProverOptions.eval_shape_iff`: the shape of a plan gives what the segments reduce to.
* `SessionProver.schedule_independent`: every schedule gives the same receipt.
-/

namespace ReplayVM

open JoinPlan SessionEvent

/-! ### One segment after the other -/

/-- Segments that are proven one after the other, and whose receipts are reduced to one. -/
def Segment.ReducesTo (strategy : ReductionStrategy) (segments : List Segment)
    (r : SuccinctReceipt) : Prop :=
  ∃ receipts, segments.mapM Segment.proveFully = .ok receipts ∧
    SegmentReceipt.joinAll strategy receipts = .ok r

/-- Segments have their receipts by their numbers if each of them has one. -/
theorem Segment.mapM_leafReceipts (segments : List Segment) :
    (List.range segments.length).mapM (leafReceipts segments) = segments.mapM leafReceipt := by
  refine Option.ext fun rs => ?_
  simp only [mapM_eq_some_iff, List.forall₂_iff_get, List.length_range, List.get_eq_getElem,
    List.getElem_range, leafReceipts]
  refine and_congr_right fun _ => forall_congr' fun i => forall_congr' fun hi => ?_
  rw [List.getElem?_eq_getElem hi, Option.bind_some]

/-- All segments have a receipt if they are proven, and their receipts lifted. -/
theorem Segment.mapM_leafReceipt_eq_some_iff {segments : List Segment} {rs : List SuccinctReceipt} :
    segments.mapM leafReceipt = some rs ↔ ∃ receipts, segments.mapM proveFully = .ok receipts ∧
      receipts.mapM SegmentReceipt.lift = .ok rs := by
  have hleaf (s : Segment) (r : SuccinctReceipt) : s.leafReceipt = some r ↔
      ∃ receipt, s.proveFully = .ok receipt ∧ receipt.lift = .ok r := by
    rw [leafReceipt]
    cases s.proveFully with
    | error cause => simp [Except.toOption]
    | ok receipt => cases hlift : receipt.lift <;> simp [Except.toOption, hlift]
  simp only [mapM_eq_some_iff, mapM_eq_ok_iff]
  constructor
  · intro h
    induction h with
    | nil => exact ⟨[], .nil, .nil⟩
    | cons hr _ ih =>
      obtain ⟨receipt, hprove, hlift⟩ := (hleaf _ _).mp hr
      obtain ⟨receipts, hproves, hlifts⟩ := ih
      exact ⟨receipt :: receipts, .cons hprove hproves, .cons hlift hlifts⟩
  · rintro ⟨receipts, hproves, hlifts⟩
    induction hproves generalizing rs with
    | nil =>
      cases hlifts
      exact .nil
    | cons hprove _ ih =>
      cases hlifts with
      | cons hlift hlifts => exact .cons ((hleaf _ _).mpr ⟨_, hprove, hlift⟩) (ih hlifts)

/-- Receipts are joined if there are some, and their lifted receipts reduce to one. -/
theorem SegmentReceipt.joinAll_eq_ok_iff {strategy : ReductionStrategy}
    {receipts : List SegmentReceipt} {r : SuccinctReceipt} : joinAll strategy receipts = .ok r ↔
      receipts ≠ [] ∧ ∃ rs, receipts.mapM lift = .ok rs ∧
        SuccinctReceipt.reduce strategy rs = .ok r := by
  cases receipts with
  | nil => simp [joinAll, bind, Except.bind]
  | cons receipt receipts =>
    simp [joinAll, bind_eq_ok_iff, mapError_eq_ok_iff, pure, Except.pure]

/-- The shape of the plan gives what the segments reduce to. -/
theorem ProverOptions.eval_shape_iff (o : ProverOptions) {segments : List Segment}
    (hne : segments ≠ []) (r : SuccinctReceipt) :
    (o.shape segments).eval (Segment.leafReceipts segments) = some r ↔
      Segment.ReducesTo o.reduction segments r := by
  have htoOption (rs : List SuccinctReceipt) :
      (SuccinctReceipt.reduce o.reduction rs).toOption = some r ↔
        SuccinctReceipt.reduce o.reduction rs = .ok r := by
    cases SuccinctReceipt.reduce o.reduction rs <;> simp [Except.toOption]
  rw [shape, JoinShape.eval_shape _ (List.length_pos_iff.mpr hne), Segment.mapM_leafReceipts,
    Option.bind_eq_some_iff, Segment.ReducesTo]
  simp only [htoOption, Segment.mapM_leafReceipt_eq_some_iff, SegmentReceipt.joinAll_eq_ok_iff]
  constructor
  · rintro ⟨rs, ⟨receipts, hprove, hlift⟩, hreduce⟩
    refine ⟨receipts, hprove, ?_, rs, hlift, hreduce⟩
    rintro rfl
    exact hne (List.eq_nil_of_length_eq_zero (mapM_eq_ok_iff.mp hprove).length_eq)
  · rintro ⟨receipts, hprove, -, rs, hlift, hreduce⟩
    exact ⟨rs, ⟨receipts, hprove, hlift⟩, hreduce⟩

namespace Segment.Series

variable {params : Params} {index count : Nat} {start : SystemState} {segments : List Segment}
  {exit : ExitCode} {stop : Live}

/-- The segments of a series reduce to a receipt. -/
theorem exists_reducesTo (h : Series params index start segments exit stop count)
    (hversion : params.recursionVersion = recursionVersion) (hlen : segments.length < UInt32.size)
    (strategy : ReductionStrategy) : ∃ r, ReducesTo strategy segments r := by
  obtain ⟨receipts, hprove, hclaims, hall⟩ := h.exists_receipts hversion
  obtain ⟨r, hr, -⟩ := SegmentReceipt.exists_joinAll
    (h.joinable hlen hclaims fun r hr => (hall r hr).2) (h.receipts_ne_nil hclaims) strategy
  exact ⟨r, receipts, hprove, hr⟩

/-- All the space there is admits the segments of a series. -/
theorem admits (h : Series params index start segments exit stop count) {o : ProverOptions}
    (hbudget : o.memoryBudget.toNat = UInt64.size - 1) : o.Admits segments where
  witness_le s hs := by
    obtain ⟨rows, hrows⟩ := h.proven s hs
    rw [hbudget]
    exact (checkAdmission_eq_ok_iff.mp hrows.admitted).2.2
  segmentMemory_le bytes _ := by
    rw [hbudget]
    exact Nat.le_sub_one_of_lt bytes.toNat_lt
  joinMemory_le := by
    rw [hbudget]
    exact Nat.le_sub_one_of_lt o.joinMemory.toNat_lt

end Segment.Series

/-- A session with some history has a balanced budget, so it can be brought to its end. -/
theorem SessionState.Sound.exists_run {o : ProverOptions} {segments : List Segment}
    {log : List SessionEvent} {s : SessionState} (h : Sound o segments log s)
    (token : CancellationToken) : ∃ schedule, (s.run token o schedule).outstanding = [] := by
  refine SessionState.exists_run token o ?_
  rw [MemoryBudget.Balanced, sum_permits]
  exact h.balanced

/-! ### Session provers -/

namespace SessionProver

/-- A prover with valid options that proves no session and is not cancelled. -/
structure Idle (p : SessionProver) : Prop where
  valid : p.options.validate = .ok ()
  budget_eq : p.budget = .full p.options.memoryBudget.toNat
  issued : ∀ number ∈ p.cancellations.cancelled, number < p.cancellations.issued
  active : p.isCancelled = false

/-- A new prover is idle. -/
theorem idle_of_make {o : ProverOptions} {p : SessionProver} (h : make o = .ok p) :
    p.Idle ∧ p.options = o := by
  cases hvalid : o.validate with
  | error cause => simp [make, hvalid, Except.mapError, bind, Except.bind] at h
  | ok u =>
    simp only [make, hvalid, Except.mapError, bind, Except.bind, pure, Except.pure,
      Except.ok.injEq] at h
    subst h
    exact ⟨⟨hvalid, rfl, by simp [Cancellations.root], rfl⟩, rfl⟩

/-- The history of the next session under a schedule. -/
def record (p : SessionProver) (segments : List Segment) (schedule : List Nat) :
    List SessionEvent :=
  (p.session segments).outstanding.map .spawned ++
    (p.session segments).history p.sessionToken p.options schedule

variable {p : SessionProver} {segments : List Segment}

/-- The token of a session of an idle prover is not cancelled. -/
theorem Idle.isCancelled_sessionToken (h : p.Idle) :
    (p.cancellations.child p.token).2.isCancelled p.sessionToken = false := by
  have hactive := h.active
  simp only [isCancelled, Cancellations.isCancelled, List.any_eq_false,
    decide_eq_true_eq] at hactive
  simp only [sessionToken, Cancellations.child, Cancellations.isCancelled,
    CancellationToken.lineage, List.any_eq_false]
  intro number hnumber hcancelled
  obtain rfl | hancestor := List.mem_cons.mp hnumber
  · exact Nat.lt_irrefl _ (h.issued _ (of_decide_eq_true hcancelled))
  · exact hactive number hancestor (of_decide_eq_true hcancelled)

/-- The next session of an idle prover is tracked. -/
theorem Idle.tracked_session (h : p.Idle) (hne : segments ≠ [])
    (hadmits : p.options.Admits segments) :
    (p.session segments).Tracked p.options p.sessionToken segments
      ((p.session segments).outstanding.map .spawned) := by
  rw [session, h.budget_eq]
  exact SessionState.tracked_start hne hadmits h.isCancelled_sessionToken

/-- The next session of an idle prover is tracked under every schedule. -/
theorem Idle.tracked_after (h : p.Idle) (hne : segments ≠ []) (hadmits : p.options.Admits segments)
    (schedule : List Nat) :
    (p.after segments schedule).Tracked p.options p.sessionToken segments
      (p.record segments schedule) :=
  (h.tracked_session hne hadmits).run hne hadmits schedule

/-- Every schedule of a session that has ended gives what the segments reduce to. -/
theorem Idle.result_eq_ok_iff (h : p.Idle) (hne : segments ≠ [])
    (hadmits : p.options.Admits segments) {schedule : List Nat}
    (hended : (p.after segments schedule).outstanding = []) (r : SuccinctReceipt) :
    (p.after segments schedule).result = .ok r ↔
      Segment.ReducesTo p.options.reduction segments r :=
  ((h.tracked_after hne hadmits schedule).result_eq_ok_iff hne hended r).trans
    (p.options.eval_shape_iff hne r)

/-- A prover with a single worker follows a schedule to its end. -/
theorem Idle.exists_schedule (h : p.Idle) (hne : segments ≠ []) :
    ∃ schedule, (p.after segments schedule).outstanding = [] ∧
      (p.proveSession segments).1 = (p.after segments schedule).result := by
  obtain ⟨schedule, hended, hafter⟩ := exists_ended_schedule h.budget_eq hne
  refine ⟨schedule, hended, ?_⟩
  rw [proveSession_eq hne, hafter]

/-- A session prover gives the same receipt under every schedule. Whichever outstanding jobs
advance, the job of each segment is spawned once. That of a join is spawned once at most, with the
receipts of its inputs, and as long as nothing has failed it is spawned as soon as these are there.
The bookkeeping never fails, and every schedule can be carried on until no jobs are outstanding.
Then the result is the receipt that the segments reduce to when they are proven one after the other,
if there is one, and in this case every node of the plan was spawned once. This is also what the
prover gives with a single worker. -/
theorem schedule_independent (hp : p.Idle) (hne : segments ≠ [])
    (hadmits : p.options.Admits segments) (schedule : List Nat) :
    Lawful (p.options.plan segments).nodes segments (p.record segments schedule) ∧
    (∀ id < segments.length, id ∈ spawnedNodes (p.record segments schedule)) ∧
    ((p.after segments schedule).failure = none →
      ∀ id node left right, (p.options.plan segments).nodes[id]? = some node →
        node.kind = .join left right → (id ∈ spawnedNodes (p.record segments schedule) ↔
          (received (p.record segments schedule) left).isSome ∧
          (received (p.record segments schedule) right).isSome)) ∧
    (∀ cause, (p.after segments schedule).failure ≠ some (.reported (.workerPool cause))) ∧
    (∃ more, (p.after segments (schedule ++ more)).outstanding = []) ∧
    ((p.after segments schedule).outstanding = [] →
      (∀ r, (p.after segments schedule).result = .ok r ↔
        Segment.ReducesTo p.options.reduction segments r) ∧
      (∀ cause, (p.after segments schedule).result ≠ .error (.reported (.workerPool cause))) ∧
      ((∃ r, (p.after segments schedule).result = .ok r) →
        (spawnedNodes (p.record segments schedule)).Perm
          (List.range (p.options.plan segments).nodes.size))) ∧
    ∀ r, (p.proveSession segments).1 = .ok r ↔
      Segment.ReducesTo p.options.reduction segments r := by
  have htracked := hp.tracked_after hne hadmits schedule
  refine ⟨htracked.sound.lawful, fun id hid => ?_, fun hnone id node left right hnode hkind => ?_,
    htracked.failure_ne_workerPool, ?_, fun hended => ⟨hp.result_eq_ok_iff hne hadmits hended,
    htracked.result_ne_workerPool hne hended, ?_⟩, ?_⟩
  · rw [record, spawnedNodes_append, spawnedNodes_map_spawned, session,
      SessionState.map_node_start]
    exact List.mem_append_left _ (List.mem_range.mpr hid)
  · obtain hunder | hfailed := htracked.progress
    · have hready : missing (received (p.record segments schedule)) node.kind = 0 ↔
          (received (p.record segments schedule) left).isSome ∧
            (received (p.record segments schedule) right).isSome := by
        simp [missing_eq_zero_iff, hkind, Takes]
      rw [hunder.spawned_iff, ← hready]
      constructor
      · rintro ⟨node', hnode', hzero⟩
        obtain rfl := Option.some.inj (hnode.symm.trans hnode')
        exact hzero
      · exact fun hzero => ⟨node, hnode, hzero⟩
    · exact absurd hnone hfailed.failure_ne
  · obtain ⟨more, hmore⟩ := htracked.sound.exists_run p.sessionToken
    refine ⟨more, ?_⟩
    rw [after, SessionState.run_append]
    exact hmore
  · rintro ⟨r, hr⟩
    obtain hunder | hfailed := htracked.progress
    · exact hunder.spawnedNodes_perm hne htracked.sound hended
    · have heval := (htracked.result_eq_ok_iff hne hended r).mp hr
      exact absurd (heval.symm.trans hfailed.eval_eq) (Option.some_ne_none r)
  · intro r
    obtain ⟨schedule', hended, hsame⟩ := hp.exists_schedule hne
    rw [hsame]
    exact hp.result_eq_ok_iff hne hadmits hended r

end SessionProver

/-! ### A guest that pauses -/

namespace PausingGuest

/-- A prover with all the space there is. -/
def prover : SessionProver where
  options := { workers := 4, memoryBudget := 0xFFFFFFFFFFFFFFFF }
  budget := .full 0xFFFFFFFFFFFFFFFF
  cancellations := { issued := 1 }
  token := ⟨0, []⟩

theorem idle_prover : prover.Idle :=
  (SessionProver.idle_of_make (o := prover.options) rfl).1

/-- The program pauses and is resumed, and the segments of both sessions are a series. -/
theorem exists_series : ∃ x c y, ∃ e : Live.RunEnd, program.execute [] options = .ok x ∧
    x.continuation = some c ∧ c.resume [] options = .ok y ∧
    (Session.allSegments [x, y]).length < UInt32.size ∧
    Segment.Series {} 0 program.initialState (Session.allSegments [x, y]) e.exit e.live
      (Session.totalCycles [x, y]) := by
  have hxrun : program.execute [] options = .ok (.ofRun ((program.live []).run limits 0)) :=
    Program.execute_eq_ok_iff.mpr ⟨limits, limits_options, rfl⟩
  have hx := Program.Sessions.execute hxrun
  have hsize : UInt32.size = 4294967296 := rfl
  have hxlen : (Session.ofRun ((program.live []).run limits 0)).segments.length ≤ 101 :=
    Program.length_segments_le hxrun
  obtain ⟨e, he, -, hparams, -⟩ := hx.exists_series checkIntegrity_program wellFormed_memory (by
    simpa [Session.allSegments] using Nat.lt_of_le_of_lt hxlen (by decide))
  generalize Session.ofRun ((program.live []).run limits 0) = x at *
  subst he
  have hexit : e.exit = .paused 0 := exitCode_of_execute hxrun
  obtain ⟨c, hc, hcparams⟩ : ∃ c, (Session.ofRun e).continuation = some c ∧ c.params = {} := by
    simp only [Session.ofRun, Session.continuationOf, hexit, hparams, Option.some.injEq,
      exists_eq_left']
    rfl
  have hyrun : c.resume [] options = .ok (.ofRun ((c.live []).run limits c.nextSegmentIndex)) :=
    Continuation.resume_eq_ok_iff.mpr ⟨limits, by rw [hcparams]; exact limits_options, rfl⟩
  have hylen : (Session.ofRun ((c.live []).run limits c.nextSegmentIndex)).segments.length ≤ 101 :=
    Continuation.length_segments_le hyrun
  generalize Session.ofRun ((c.live []).run limits c.nextSegmentIndex) = y at *
  have hlen : (Session.allSegments [.ofRun e, y]).length < UInt32.size := by
    simp only [Session.allSegments, List.flatMap_cons, List.flatMap_nil, List.append_nil,
      List.length_append]
    omega
  obtain ⟨e', -, -, -, -, -, -, hseries⟩ := (hx.resume hc hyrun).exists_series
    checkIntegrity_program wellFormed_memory hlen
  exact ⟨_, c, y, e', hxrun, hc, hyrun, hlen, hseries⟩

end PausingGuest

open PausingGuest in
/-- The program pauses and is resumed, and every schedule gives the same receipt for both of its
sessions. -/
theorem SessionProver.schedule_independent_pausing :
    ∃ x c y r, program.execute [] PausingGuest.options = .ok x ∧ x.continuation = some c ∧
      c.resume [] PausingGuest.options = .ok y ∧ ∀ schedule,
        (prover.after (Session.allSegments [x, y]) schedule).outstanding = [] →
        (prover.after (Session.allSegments [x, y]) schedule).result = .ok r ∧
        (spawnedNodes (prover.record (Session.allSegments [x, y]) schedule)).Perm
          (List.range (prover.options.plan (Session.allSegments [x, y])).nodes.size) := by
  obtain ⟨x, c, y, e, hx, hc, hy, hlen, hseries⟩ := exists_series
  obtain ⟨r, hr⟩ := hseries.exists_reducesTo rfl hlen prover.options.reduction
  refine ⟨x, c, y, r, hx, hc, hy, fun schedule hended => ?_⟩
  obtain ⟨-, -, -, -, -, hend, -⟩ :=
    schedule_independent idle_prover hseries.ne_nil (hseries.admits rfl) schedule
  obtain ⟨hresult, -, hspawned⟩ := hend hended
  have hok := (hresult r).mpr hr
  exact ⟨hok, hspawned ⟨r, hok⟩⟩

end ReplayVM
