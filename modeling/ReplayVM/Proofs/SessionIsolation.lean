import ReplayVM.Proofs.BudgetConservation
import ReplayVM.Proofs.ScheduleIndependence

/-!
# Isolation of sessions

A session shares the budget and the cancellations with the other sessions of its prover. It gives
back the memory that it took, and it cancels nothing but its own token, which no other session
descends from. What a session does can therefore not be told from what it would do on a new prover,
whatever happened before, as long as the prover itself is not cancelled. Once it is, or a token that
it descends from, all sessions are.

## Main definitions

* `SessionState.Alike`: sessions that differ in nothing but the tokens around them.
* `Cancellations.CancelsOnly`: nothing but one token was cancelled in the meantime.
* `SessionProver.Rested`, `SessionProver.History`: provers between two sessions.

## Main results

* `SessionState.Alike.advance`: alike sessions advance alike.
* `SessionState.cancelsOnly_advance`: a session cancels its own token only.
* `SessionProver.sessions_isolated`: a prover proves each session as if it were the first.
-/

namespace ReplayVM

/-! ### Cancelling one token -/

namespace Cancellations

variable {t u : CancellationToken} {c c' c'' : Cancellations}

/-- In the meantime no token was issued, and none was cancelled but this one. -/
structure CancelsOnly (t : CancellationToken) (c c' : Cancellations) : Prop where
  issued_eq : c'.issued = c.issued
  mem_of_mem : ∀ number ∈ c.cancelled, number ∈ c'.cancelled
  mem_or_eq : ∀ number ∈ c'.cancelled, number ∈ c.cancelled ∨ number = t.number

theorem CancelsOnly.refl (t : CancellationToken) (c : Cancellations) : CancelsOnly t c c :=
  ⟨rfl, fun _ => id, fun _ => .inl⟩

theorem CancelsOnly.trans (h : CancelsOnly t c c') (h' : CancelsOnly t c' c'') :
    CancelsOnly t c c'' where
  issued_eq := h'.issued_eq.trans h.issued_eq
  mem_of_mem number hnumber := h'.mem_of_mem number (h.mem_of_mem number hnumber)
  mem_or_eq number hnumber := (h'.mem_or_eq number hnumber).elim (h.mem_or_eq number) .inr

theorem CancelsOnly.cancel (t : CancellationToken) (c : Cancellations) :
    CancelsOnly t c (c.cancel t) where
  issued_eq := rfl
  mem_of_mem _ hnumber := List.mem_cons_of_mem _ hnumber
  mem_or_eq _ hnumber := (List.mem_cons.mp hnumber).symm

/-- A token stays cancelled. -/
theorem CancelsOnly.isCancelled (h : CancelsOnly t c c') (hcancelled : c.isCancelled u = true) :
    c'.isCancelled u = true := by
  simp only [Cancellations.isCancelled, List.any_eq_true, decide_eq_true_eq] at hcancelled ⊢
  obtain ⟨number, hlineage, hmem⟩ := hcancelled
  exact ⟨number, hlineage, h.mem_of_mem number hmem⟩

/-- A token that does not descend from the one that is cancelled stays as it is. -/
theorem CancelsOnly.isCancelled_eq (h : CancelsOnly t c c') (hapart : t.number ∉ u.lineage) :
    c'.isCancelled u = c.isCancelled u := by
  refine Bool.eq_iff_iff.mpr ⟨fun hcancelled => ?_, h.isCancelled⟩
  simp only [Cancellations.isCancelled, List.any_eq_true, decide_eq_true_eq] at hcancelled ⊢
  obtain ⟨number, hlineage, hmem⟩ := hcancelled
  obtain hmem | rfl := h.mem_or_eq number hmem
  · exact ⟨number, hlineage, hmem⟩
  · exact absurd hlineage hapart

end Cancellations

open Cancellations (CancelsOnly)

namespace SessionState

variable {o : ProverOptions} {t u : CancellationToken} {s s' : SessionState}

/-! ### Sessions that cancel -/

/-- The end of a job cancels the token of its session at most. -/
theorem Ends.cancelsOnly {node : Nat} {result : Except (Stop PipelineError) SuccinctReceipt}
    {events : List SessionEvent} (h : Ends t s node result events s') :
    CancelsOnly t s.cancellations s'.cancellations := by
  cases h with
  | stops => exact .cancel t _
  | fails => exact .cancel t _
  | collides => exact .cancel t _
  | _ => exact .refl t _

/-- So does an advance. -/
theorem cancelsOnly_advance (t : CancellationToken) (o : ProverOptions) (position : Nat)
    (s : SessionState) : CancelsOnly t s.cancellations (s.advance t o position).cancellations := by
  obtain hstage | ⟨-, hsame, -⟩ := s.advance_cases t o position
  · generalize s.advance t o position = s', s.events t o position = events at hstage
    cases hstage with
    | runs => exact .refl t _
    | ends _ _ _ hends => exact hends.cancelsOnly
  · rw [hsame]
    exact .refl t _

/-- So does every schedule. -/
theorem cancelsOnly_run (t : CancellationToken) (o : ProverOptions) (schedule : List Nat)
    (s : SessionState) : CancelsOnly t s.cancellations (s.run t o schedule).cancellations := by
  induction schedule generalizing s with
  | nil => exact .refl t _
  | cons position schedule ih => exact (s.cancelsOnly_advance t o position).trans (ih _)

/-! ### Sessions that are alike -/

/-- Two sessions that differ only in their tokens, and in what was cancelled of the others. -/
def Alike (t u : CancellationToken) (s s' : SessionState) : Prop :=
  ∃ c : Cancellations, s' = { s with cancellations := c } ∧
    c.isCancelled u = s.cancellations.isCancelled t

namespace Alike

/-- Sessions that fail alike are both cancelled. -/
theorem fail (h : Alike t u s s') (cause : Stop PipelineError) :
    Alike t u (s.fail t cause) (s'.fail u cause) := by
  obtain ⟨c, rfl, -⟩ := h
  have hown (token : CancellationToken) (c : Cancellations) :
      (c.cancel token).isCancelled token = true :=
    (c.isCancelled_cancel token token).mpr (.inl List.mem_cons_self)
  exact ⟨c.cancel u, rfl, (hown u c).trans (hown t s.cancellations).symm⟩

/-- Alike sessions take in a receipt alike. -/
theorem complete (h : Alike t u s s') (node : Nat) (receipt : SuccinctReceipt) :
    Alike t u (s.complete t node receipt) (s'.complete u node receipt) := by
  obtain ⟨c, rfl, hc⟩ := h
  have hcompleted : Alike t u { s with plan := (s.plan.complete node receipt).1 }
      { s with plan := (s.plan.complete node receipt).1, cancellations := c } := ⟨c, rfl, hc⟩
  simp only [SessionState.complete]
  split
  · exact hcompleted
  · simp only [spawnJoin]
    split
    · exact ⟨c, rfl, hc⟩
    · exact hcompleted.fail _

/-- Alike sessions take in the result of a job alike. -/
theorem finish (h : Alike t u s s') (node : Nat)
    (result : Except (Stop PipelineError) SuccinctReceipt) :
    Alike t u (s.finish t node result) (s'.finish u node result) := by
  have hfailure : s'.failure = s.failure := by
    obtain ⟨c, rfl, -⟩ := h
    rfl
  match result with
  | .error .overflow => exact h.fail .overflow
  | .error (.reported cause) =>
    simp only [SessionState.finish, hfailure]
    split
    · exact h
    · exact h.fail (.reported cause)
  | .ok receipt =>
    simp only [SessionState.finish, hfailure]
    split
    · exact h
    · exact h.complete node receipt

/-- **Alike sessions advance alike.** -/
theorem advance (h : Alike t u s s') (o : ProverOptions) (position : Nat) :
    Alike t u (s.advance t o position) (s'.advance u o position) := by
  have hsame := h
  obtain ⟨c, rfl, hc⟩ := h
  simp only [SessionState.advance, hc]
  split
  · exact hsame
  · split
    · exact ⟨c, rfl, hc⟩
    · exact ⟨c, rfl, hc⟩
    · rename_i task _ _ result budget _
      have hleft : Alike t u
          { s with outstanding := s.outstanding.eraseIdx position, budget := budget }
          { s with
            outstanding := s.outstanding.eraseIdx position
            budget := budget
            cancellations := c } := ⟨c, rfl, hc⟩
      exact hleft.finish task.node result

/-- Alike sessions run alike under every schedule. -/
theorem run (h : Alike t u s s') (o : ProverOptions) (schedule : List Nat) :
    Alike t u (s.run t o schedule) (s'.run u o schedule) := by
  induction schedule generalizing s s' with
  | nil => exact h
  | cons position schedule ih => exact ih (h.advance o position)

/-- Alike sessions have the same outstanding jobs. -/
theorem outstanding_eq (h : Alike t u s s') : s'.outstanding = s.outstanding := by
  obtain ⟨c, rfl, -⟩ := h
  rfl

/-- Alike sessions have the same result. -/
theorem result_eq (h : Alike t u s s') : s'.result = s.result := by
  obtain ⟨c, rfl, -⟩ := h
  rfl

/-- A single worker runs alike sessions alike. -/
theorem runInOrder (h : Alike t u s s') (o : ProverOptions) (stages : Nat) :
    Alike t u (s.runInOrder t o stages) (s'.runInOrder u o stages) := by
  induction stages generalizing s s' with
  | zero => exact h
  | succ stages ih =>
    rw [SessionState.runInOrder, SessionState.runInOrder, h.outstanding_eq]
    split
    · exact h
    · exact ih (h.advance o 0)

end Alike

/-! ### Cancelled sessions -/

/-- A session that is cancelled before any of its jobs advances. -/
structure CancelledEarly (t : CancellationToken) (s : SessionState) : Prop where
  cancelled : s.cancellations.isCancelled t = true
  queued : ∀ task ∈ s.outstanding, ∃ job, task.state = .queued job
  /-- The session fails for this, with the first job that ends. -/
  failure_eq : (s.failure = none ∧ s.outstanding ≠ []) ∨
    s.failure = some (.reported (.prover .cancelled))

/-- The jobs of a cancelled session end at once. -/
theorem CancelledEarly.stage {position : Nat} {events : List SessionEvent} (h : CancelledEarly t s)
    (hstage : Stage t o s position events s') : CancelledEarly t s' := by
  have hends {task : Task} (htask : task ∈ s.outstanding) :
      s.progress t o task = .finished (.error (.reported (.prover .cancelled))) s.budget := by
    obtain ⟨job, hjob⟩ := h.queued task htask
    rw [progress, hjob, JobState.advance, JobState.reserve, if_pos h.cancelled]
  cases hstage with
  | runs houtstanding _ hprogress =>
    rw [hends (by simp [houtstanding])] at hprogress
    cases hprogress
  | @ends before task after result budget events s' houtstanding _ hprogress hends' =>
    rw [hends (by simp [houtstanding])] at hprogress
    cases hprogress
    have hcancelled := hends'.cancelsOnly.isCancelled h.cancelled
    have hqueued : ∀ task ∈ before ++ after, ∃ job, task.state = .queued job := by
      intro task htask
      refine h.queued task ?_
      rw [houtstanding]
      exact (List.mem_append.mp htask).elim (List.mem_append_left _) fun hmem =>
        List.mem_append_right _ (List.mem_cons_of_mem _ hmem)
    cases hends' with
    | dropped hfailure =>
      refine ⟨hcancelled, hqueued, .inr ?_⟩
      obtain ⟨hnone, -⟩ | hsome := h.failure_eq
      · simp [hnone] at hfailure
      · exact hsome
    | fails => exact ⟨hcancelled, hqueued, .inr rfl⟩

theorem CancelledEarly.run (h : CancelledEarly t s) (schedule : List Nat) :
    CancelledEarly t (s.run t o schedule) := by
  induction schedule generalizing s with
  | nil => exact h
  | cons position schedule ih =>
    refine ih ?_
    obtain hstage | ⟨-, hsame, -⟩ := s.advance_cases t o position
    · exact h.stage hstage
    · rwa [hsame]

/-- A cancelled session ends with its cancellation. -/
theorem CancelledEarly.result_eq (h : CancelledEarly t s) (hended : s.outstanding = []) :
    s.result = .error (.reported (.prover .cancelled)) := by
  obtain ⟨-, hne⟩ | hsome := h.failure_eq
  · exact absurd hended hne
  · rw [result, hsome]

end SessionState

/-! ### Provers between sessions -/

namespace SessionProver

variable {o : ProverOptions} {p q fresh : SessionProver} {segments : List Segment}

/-- A prover that proves no session, whose tokens were issued before. It may be cancelled. -/
structure Rested (p : SessionProver) : Prop where
  valid : p.options.validate = .ok ()
  budget_eq : p.budget = .full p.options.memoryBudget.toNat
  issued : ∀ number ∈ p.cancellations.cancelled, number < p.cancellations.issued
  lineage : ∀ number ∈ p.token.lineage, number < p.cancellations.issued

/-- A rested prover that is not cancelled is idle. -/
theorem Rested.idle (h : p.Rested) (hactive : p.isCancelled = false) : p.Idle :=
  ⟨h.valid, h.budget_eq, h.issued, hactive⟩

/-- A new prover is rested. -/
theorem rested_of_make (h : make o = .ok p) : p.Rested ∧ p.options = o := by
  obtain ⟨hidle, hoptions⟩ := idle_of_make h
  refine ⟨⟨hidle.valid, hidle.budget_eq, hidle.issued, fun number hnumber => ?_⟩, hoptions⟩
  simp only [make, hoptions ▸ hidle.valid, Except.mapError, bind, Except.bind, pure, Except.pure,
    Except.ok.injEq] at h
  subst h
  obtain rfl := List.mem_singleton.mp hnumber
  exact Nat.lt_succ_self 0

/-- What happens to a prover between sessions, and the sessions, however they end: tokens are
issued, and tokens that were issued are cancelled. -/
inductive History (p : SessionProver) : SessionProver → Prop
  | start : History p p
  | session {r : SessionProver} (h : History p r) (segments : List Segment) :
    History p (r.proveSession segments).2
  | issue {r : SessionProver} (h : History p r) (parent : CancellationToken) :
    History p { r with cancellations := (r.cancellations.child parent).2 }
  | cancel {r : SessionProver} (h : History p r) (t : CancellationToken)
    (hissued : t.number < r.cancellations.issued) :
    History p { r with cancellations := r.cancellations.cancel t }

/-- A session issues its own token, and cancels this one at most. -/
theorem cancelsOnly_proveSession (hbudget : p.budget = .full p.options.memoryBudget.toNat)
    (hne : segments ≠ []) : CancelsOnly p.sessionToken (p.cancellations.child p.token).2
      (p.proveSession segments).2.cancellations := by
  obtain ⟨schedule, -, hinorder⟩ := exists_ended_schedule hbudget hne
  rw [proveSession_eq hne, hinorder]
  exact SessionState.cancelsOnly_run p.sessionToken p.options schedule (p.session segments)

/-- A session keeps the options and the token of its prover. -/
theorem proveSession_options_token (p : SessionProver) (segments : List Segment) :
    (p.proveSession segments).2.options = p.options ∧
      (p.proveSession segments).2.token = p.token := by
  rw [proveSession]
  split <;> exact ⟨rfl, rfl⟩

/-- A prover is rested after a session. -/
theorem Rested.proveSession (h : p.Rested) (segments : List Segment) :
    (p.proveSession segments).2.Rested := by
  by_cases hne : segments = []
  · subst hne
    exact h
  obtain ⟨hoptions, htoken⟩ := p.proveSession_options_token segments
  have honly := cancelsOnly_proveSession h.budget_eq hne
  have hissued : (p.proveSession segments).2.cancellations.issued = p.cancellations.issued + 1 :=
    honly.issued_eq
  refine ⟨hoptions ▸ h.valid, hoptions ▸ budget_proveSession h.budget_eq segments,
    fun number hnumber => ?_, fun number hnumber => ?_⟩
  · rw [hissued]
    obtain hmem | rfl := honly.mem_or_eq number hnumber
    · exact Nat.lt_succ_of_lt (h.issued number hmem)
    · exact Nat.lt_succ_self _
  · rw [htoken] at hnumber
    rw [hissued]
    exact Nat.lt_succ_of_lt (h.lineage number hnumber)

/-- A prover stays rested. -/
theorem Rested.history (h : p.Rested) (hhistory : History p q) :
    q.Rested ∧ q.options = p.options := by
  induction hhistory with
  | start => exact ⟨h, rfl⟩
  | session _ segments ih =>
    obtain ⟨ih, hoptions⟩ := ih
    exact ⟨ih.proveSession segments, (proveSession_options_token _ segments).1.trans hoptions⟩
  | issue _ parent ih =>
    obtain ⟨ih, hoptions⟩ := ih
    exact ⟨⟨ih.valid, ih.budget_eq,
      fun number hnumber => Nat.lt_succ_of_lt (ih.issued number hnumber),
      fun number hnumber => Nat.lt_succ_of_lt (ih.lineage number hnumber)⟩, hoptions⟩
  | cancel _ t hissued ih =>
    obtain ⟨ih, hoptions⟩ := ih
    refine ⟨⟨ih.valid, ih.budget_eq, fun number hnumber => ?_, ih.lineage⟩, hoptions⟩
    obtain rfl | hmem := List.mem_cons.mp hnumber
    · exact hissued
    · exact ih.issued number hmem

/-- A session does not cancel its prover. -/
theorem Rested.isCancelled_proveSession (h : p.Rested) (segments : List Segment) :
    (p.proveSession segments).2.isCancelled = p.isCancelled := by
  by_cases hne : segments = []
  · subst hne
    rfl
  have honly := cancelsOnly_proveSession h.budget_eq hne
  have hapart : p.sessionToken.number ∉ p.token.lineage := fun hmem =>
    Nat.lt_irrefl _ (h.lineage _ hmem)
  rw [isCancelled, (p.proveSession_options_token segments).2, honly.isCancelled_eq hapart]
  rfl

/-- A prover that is cancelled stays so. -/
theorem Rested.isCancelled_history (h : p.Rested) (hhistory : History p q)
    (hcancelled : p.isCancelled = true) : q.isCancelled = true := by
  induction hhistory with
  | start => exact hcancelled
  | session hq segments ih => rwa [(h.history hq).1.isCancelled_proveSession]
  | issue _ parent ih => exact ih
  | cancel _ t _ ih => exact (Cancellations.isCancelled_cancel _ _ _).mpr (.inr ih)

/-! ### Isolation -/

/-- The sessions of two idle provers with the same options are alike. -/
theorem Idle.alike_session (hp : p.Idle) (hq : q.Idle) (hoptions : q.options = p.options)
    (segments : List Segment) : SessionState.Alike p.sessionToken q.sessionToken
      (p.session segments) (q.session segments) := by
  refine ⟨(q.cancellations.child q.token).2, ?_,
    hq.isCancelled_sessionToken.trans hp.isCancelled_sessionToken.symm⟩
  rw [session, session, hp.budget_eq, hq.budget_eq, hoptions]
  rfl

/-- Two idle provers with the same options prove a session alike. -/
theorem Idle.proveSession_eq (hp : p.Idle) (hq : q.Idle) (hoptions : q.options = p.options)
    (segments : List Segment) : (q.proveSession segments).1 = (p.proveSession segments).1 := by
  by_cases hne : segments = []
  · subst hne
    rfl
  · have halike := hp.alike_session hq hoptions segments
    have hstages : (q.session segments).maxStages = (p.session segments).maxStages := by
      rw [session, session, hoptions]
      rfl
    rw [SessionProver.proveSession_eq hne, SessionProver.proveSession_eq hne, inOrder, inOrder,
      hoptions, hstages]
    exact (halike.runInOrder p.options _).result_eq

/-- A session of a cancelled prover ends with its cancellation, under every schedule. -/
theorem result_of_cancelled (hcancelled : p.isCancelled = true) (hne : segments ≠ [])
    {schedule : List Nat} (hended : (p.after segments schedule).outstanding = []) :
    (p.after segments schedule).result = .error (.reported (.prover .cancelled)) := by
  have hsession : SessionState.CancelledEarly p.sessionToken (p.session segments) := by
    refine ⟨?_, fun _ => SessionState.queued_of_mem_start, .inl ⟨rfl, ?_⟩⟩
    · have hlineage : (p.cancellations.child p.token).2.isCancelled p.token = true := hcancelled
      simp only [Cancellations.isCancelled, List.any_eq_true] at hlineage ⊢
      obtain ⟨number, hnumber, hmem⟩ := hlineage
      exact ⟨number, List.mem_cons_of_mem _ hnumber, hmem⟩
    · simpa [session, SessionState.start] using hne
  exact (hsession.run schedule).result_eq hended

/-- So does what a single worker makes of it. -/
theorem Rested.proveSession_of_cancelled (h : p.Rested) (hcancelled : p.isCancelled = true)
    (hne : segments ≠ []) :
    (p.proveSession segments).1 = .error (.reported (.prover .cancelled)) := by
  obtain ⟨schedule, hended, hinorder⟩ := exists_ended_schedule h.budget_eq hne
  rw [SessionProver.proveSession_eq hne, hinorder]
  exact result_of_cancelled hcancelled hne hended

/-- **A prover proves each session as if it were the first.** Whatever sessions it proved before,
and whatever other tokens were issued and cancelled, a prover that is not cancelled gives what a new
prover with the same options gives, under every schedule of the jobs, and it is not cancelled by the
session. Once its token is cancelled, or one that it descends from, every session that has segments
ends with its cancellation. -/
theorem sessions_isolated (hfresh : make o = .ok fresh) (hp : p.Rested) (hoptions : p.options = o)
    (hhistory : History p q) :
    (q.isCancelled = false → ∀ segments,
      (q.proveSession segments).1 = (fresh.proveSession segments).1 ∧
      (q.proveSession segments).2.isCancelled = false ∧
      ∀ schedule,
        (q.after segments schedule).outstanding = (fresh.after segments schedule).outstanding ∧
        (q.after segments schedule).result = (fresh.after segments schedule).result) ∧
    (q.isCancelled = true → ∀ segments ≠ [],
      (q.proveSession segments).1 = .error (.reported (.prover .cancelled)) ∧
      ∀ schedule, (q.after segments schedule).outstanding = [] →
        (q.after segments schedule).result = .error (.reported (.prover .cancelled))) ∧
    ∀ t later, t.number ∈ q.token.lineage →
      History { q with cancellations := q.cancellations.cancel t } later →
      later.isCancelled = true ∧
        ∀ segments ≠ [],
          (later.proveSession segments).1 = .error (.reported (.prover .cancelled)) := by
  obtain ⟨hidle, hsame⟩ := idle_of_make hfresh
  obtain ⟨hrested, hq⟩ := hp.history hhistory
  have hoptions' : q.options = fresh.options := hq.trans (hoptions.trans hsame.symm)
  refine ⟨fun hactive segments => ?_, fun hcancelled segments hne =>
    ⟨hrested.proveSession_of_cancelled hcancelled hne, fun _ =>
      result_of_cancelled hcancelled hne⟩, fun t later hancestor hlater => ?_⟩
  · have halike := hidle.alike_session (hrested.idle hactive) hoptions' segments
    refine ⟨hidle.proveSession_eq (hrested.idle hactive) hoptions' segments,
      (hrested.isCancelled_proveSession segments).trans hactive, fun schedule => ?_⟩
    have hrun := halike.run fresh.options schedule
    rw [after, after, hoptions']
    exact ⟨hrun.outstanding_eq, hrun.result_eq⟩
  · have hcancels : History p { q with cancellations := q.cancellations.cancel t } :=
      hhistory.cancel t (hrested.lineage _ hancestor)
    have hrested' := (hp.history hcancels).1
    have hcancelled : later.isCancelled = true := hrested'.isCancelled_history hlater
      ((Cancellations.isCancelled_cancel _ _ _).mpr (.inl hancestor))
    exact ⟨hcancelled, fun _ hne =>
      (hrested'.history hlater).1.proveSession_of_cancelled hcancelled hne⟩

open PausingGuest in
/-- Behind any session, such as one that fails because of its parameters, the prover of the pausing
guest proves the next one as before, and none once it is cancelled. -/
theorem sessions_isolated_pausing :
    make prover.options = .ok prover ∧ prover.Rested ∧
    (prover.proveSession [HundredBytes.segment]).1 =
      .error (.reported (.prover (.params (.memoryBits 31)))) ∧
    ∀ earlier segments,
      ((prover.proveSession earlier).2.proveSession segments).1 = (prover.proveSession segments).1 ∧
      ((prover.proveSession earlier).2.proveSession segments).2.isCancelled = false ∧
      (segments ≠ [] → ((prover.proveSession earlier).2.cancel.proveSession segments).1 =
        .error (.reported (.prover .cancelled))) := by
  have hfresh : make prover.options = .ok prover := rfl
  have hrested := (rested_of_make hfresh).1
  refine ⟨hfresh, hrested, rfl, fun earlier segments => ?_⟩
  have hactive := ((sessions_isolated hfresh hrested rfl .start).1 rfl earlier).2.1
  obtain ⟨has, -, hcancels⟩ :=
    sessions_isolated hfresh hrested rfl (.session .start earlier)
  obtain ⟨hresult, hstays, -⟩ := has hactive segments
  exact ⟨hresult, hstays, fun hne =>
    (hcancels _ _ List.mem_cons_self .start).2 segments hne⟩

end SessionProver

end ReplayVM
