import ReplayVM.Proofs.SessionEndings

/-!
# Conservation of the memory budget

Several sessions of one prover may be proven at the same time, and others may ask the budget of the
prover for memory. Whatever the order in which jobs advance, memory is asked for and given back, and
tokens are cancelled, what is available and what the live permits are for make up the budget. A
session that has ended has returned its permits, however it ended.

A job that proves a segment looks several times whether it is cancelled. Wherever the cancellation
comes, it ends as if it had come before the job proved or not at all, so that a stage in which
nothing is cancelled stands for all of them.

## Main definitions

* `Workload`, `Workload.livePermits`: what goes on over a prover.
* `Workload.Event`, `Workload.run`: what happens next, in any order.
* `Workload.Conserved`: what holds of the budget at any time.

## Main results

* `Segment.prove_eq_or_eq`: proving that is cancelled on its way.
* `Workload.change_step`: an event is about one permit at most.
* `Workload.run_single`: a workload of one session is this session under a schedule.
* `Workload.budget_conserved`: the memory budget is conserved.
-/

namespace ReplayVM

open MemoryBudget (Change Balanced)

/-! ### Jobs that are cancelled on their way -/

/-- Wherever proving is cancelled on its way, it ends as if it had been cancelled before it started
or not at all. -/
theorem Segment.prove_eq_or_eq (s : Segment) (budget : Nat) (cancelled : Checkpoint → Bool) :
    s.prove budget cancelled = s.prove budget (fun _ => false) ∨
      s.prove budget cancelled = s.prove budget (fun _ => true) := by
  have hcancelled : s.prove budget (fun _ => true) = .error (.reported .cancelled) := rfl
  rw [hcancelled]
  simp only [prove, Checkpoint.pass, bind, Except.bind]
  by_cases hstart : cancelled .start
  · exact .inr (by rw [if_pos hstart])
  · cases s.checkAdmission budget with
    | error cause => exact .inl (by rw [if_neg hstart]; rfl)
    | ok u =>
      cases s.witness.mapError fun cause =>
        Stop.reported (ProverError.inconsistent s.index cause) with
      | error cause => exact .inl (by rw [if_neg hstart]; rfl)
      | ok rows =>
        by_cases hrows : cancelled .rows
        · exact .inr (by rw [if_neg hstart, if_pos hrows])
        · by_cases hroot : cancelled .root
          · exact .inr (by rw [if_neg hstart, if_neg hrows, if_pos hroot])
          · exact .inl (by rw [if_neg hstart, if_neg hrows, if_neg hroot]; rfl)

/-! ### Refused jobs -/

namespace SessionState

variable {o : ProverOptions} {token : CancellationToken} {s : SessionState} {position : Nat}

/-- A queued job that is not granted its memory leaves the budget and the permits as they are. -/
theorem advance_of_refused {task : Task} {job : Job}
    (htask : s.outstanding[position]? = some task) (hjob : task.state = .queued job)
    (hrefused : (∃ bytes, job.demand o = some bytes ∧ s.budget.total < bytes.toNat) ∨
      s.cancellations.isCancelled token = true) :
    (s.advance token o position).budget = s.budget ∧
      (s.advance token o position).permits = s.permits := by
  obtain ⟨cause, hfinished⟩ := JobState.exists_finished_of_refused hrefused
  rw [← hjob] at hfinished
  have hadvance : s.advance token o position =
      { s with outstanding := s.outstanding.eraseIdx position }.finish token task.node
        (.error (.reported (.prover cause))) := by
    simp [advance, htask, hfinished]
  have hends := @ends_finish token { s with outstanding := s.outstanding.eraseIdx position }
    task.node (.error (.reported (.prover cause)))
  obtain ⟨hbudget, hpermits⟩ := hends.permits_eq
  rw [hadvance]
  refine ⟨hbudget, hpermits.trans ?_⟩
  have hnone : task.state.permit?.toList = [] := by
    rw [hjob]
    rfl
  rw [permits, permits, List.eraseIdx_eq_take_drop_succ]
  conv_rhs => rw [eq_take_cons_drop htask]
  rw [List.flatMap_append, List.flatMap_append, List.flatMap_cons, hnone, List.nil_append]

end SessionState

/-! ### Workloads -/

/-- What goes on over a prover at one time. -/
structure Workload where
  prover : SessionProver
  /-- The sessions with their tokens. They share the budget and the cancellations of the prover. -/
  sessions : List (CancellationToken × SessionState) := []
  /-- The permits that do not belong to the jobs of a session. -/
  permits : List Nat := []

namespace Workload

/-- Nothing goes on over a prover. -/
def idle (p : SessionProver) : Workload := { prover := p }

/-- What happens over a prover. -/
inductive Event where
  /-- A session begins. -/
  | prove (segments : List Segment)
  /-- The outstanding job at a position of a session advances. -/
  | advance (session position : Nat)
  /-- Memory is asked for. -/
  | acquire (bytes : Nat) (token : CancellationToken)
  /-- A permit is dropped. -/
  | drop (permit : Nat)
  | cancel (token : CancellationToken)

/-- A session with the budget and the cancellations of the prover. -/
def share (w : Workload) (s : SessionState) : SessionState :=
  { s with budget := w.prover.budget, cancellations := w.prover.cancellations }

/-- What an event leads to. What is refused, and what has to wait, has no permit. -/
def step (w : Workload) : Event → Workload
  | .prove segments =>
    if segments.isEmpty then w
    else
      { w with
        prover := { w.prover with
          cancellations := (w.prover.cancellations.child w.prover.token).2 }
        sessions := w.sessions ++ [(w.prover.sessionToken, w.prover.session segments)] }
  | .advance session position =>
    match w.sessions[session]? with
    | none => w
    | some (token, s) =>
      let s := (w.share s).advance token w.prover.options position
      { w with
        prover := { w.prover with budget := s.budget, cancellations := s.cancellations }
        sessions := w.sessions.set session (token, s) }
  | .acquire bytes token =>
    let (admission, left) :=
      w.prover.budget.acquire bytes (w.prover.cancellations.isCancelled token)
    let w := { w with prover := { w.prover with budget := left } }
    match admission with
    | .granted => { w with permits := bytes :: w.permits }
    | _ => w
  | .drop permit =>
    match w.permits[permit]? with
    | none => w
    | some bytes =>
      { w with
        prover := { w.prover with budget := w.prover.budget.release bytes }
        permits := w.permits.eraseIdx permit }
  | .cancel token =>
    { w with prover := { w.prover with cancellations := w.prover.cancellations.cancel token } }

/-- What some events lead to, one after the other. -/
def run (w : Workload) (events : List Event) : Workload := events.foldl step w

/-- All permits that are live. -/
def livePermits (w : Workload) : List Nat :=
  (w.sessions.flatMap fun entry => entry.2.permits) ++ w.permits

variable {w : Workload}

/-- The live permits after one session has changed. -/
theorem livePermits_set {session : Nat} {entry : CancellationToken × SessionState}
    (hentry : w.sessions[session]? = some entry) (prover : SessionProver)
    (entry' : CancellationToken × SessionState) : ∃ before after,
      w.livePermits = before ++ entry.2.permits ++ after ∧
      ({ w with
        prover := prover
        sessions := w.sessions.set session entry' } : Workload).livePermits =
          before ++ entry'.2.permits ++ after := by
  refine ⟨(w.sessions.take session).flatMap fun entry => entry.2.permits,
    ((w.sessions.drop (session + 1)).flatMap fun entry => entry.2.permits) ++ w.permits, ?_, ?_⟩
  · rw [livePermits]
    conv_lhs => rw [eq_take_cons_drop hentry]
    simp only [List.flatMap_append, List.flatMap_cons, List.append_assoc]
  · rw [livePermits, List.set_eq_take_append_cons_drop,
      if_pos (List.getElem?_eq_some_iff.mp hentry).1]
    simp only [List.flatMap_append, List.flatMap_cons, List.append_assoc]

/-- An event grants one permit, returns one, or leaves the budget and the permits as they are. -/
theorem change_step (w : Workload) (event : Event) : Change w.prover.budget w.livePermits
    (w.step event).prover.budget (w.step event).livePermits := by
  cases event with
  | prove segments =>
    rw [step]
    split
    · exact .keeps (List.Perm.refl _)
    · refine .keeps (.of_eq ?_)
      simp [livePermits, SessionProver.permits_session]
  | advance session position =>
    rw [step]
    split
    · exact .keeps (List.Perm.refl _)
    · rename_i token s hentry
      obtain ⟨before, after, hwas, his⟩ := livePermits_set hentry
        { w.prover with
          budget := ((w.share s).advance token w.prover.options position).budget
          cancellations := ((w.share s).advance token w.prover.options position).cancellations }
        (token, (w.share s).advance token w.prover.options position)
      rw [hwas]
      dsimp only
      rw [his]
      exact ((w.share s).change_advance token w.prover.options position).frame before after
  | acquire bytes token =>
    rw [step]
    rcases hacquire : w.prover.budget.acquire bytes (w.prover.cancellations.isCancelled token) with
      ⟨_ | cause | _, left⟩
    · obtain ⟨hle, rfl⟩ := MemoryBudget.acquire_granted hacquire
      exact .takes hle List.perm_middle
    · obtain ⟨rfl, -⟩ := MemoryBudget.acquire_refused hacquire
      exact .keeps (List.Perm.refl _)
    · obtain ⟨rfl, -⟩ := MemoryBudget.acquire_waiting hacquire
      exact .keeps (List.Perm.refl _)
  | drop permit =>
    rw [step]
    split
    · exact .keeps (List.Perm.refl _)
    · rename_i bytes hbytes
      obtain ⟨hlt, rfl⟩ := List.getElem?_eq_some_iff.mp hbytes
      refine .gives ?_
      have hperm := List.getElem_cons_eraseIdx_perm hlt
      exact (hperm.symm.append_left _).trans List.perm_middle
  | cancel token => exact .keeps (List.Perm.refl _)

/-- The budget stays balanced, and keeps its size. -/
theorem balanced_run (hbalanced : w.prover.budget.Balanced w.livePermits) (events : List Event) :
    (w.run events).prover.budget.Balanced (w.run events).livePermits ∧
      (w.run events).prover.budget.total = w.prover.budget.total := by
  induction events generalizing w with
  | nil => exact ⟨hbalanced, rfl⟩
  | cons event events ih =>
    have hchange := w.change_step event
    obtain ⟨hbalanced', htotal⟩ := ih (hchange.balanced hbalanced)
    exact ⟨hbalanced', htotal.trans hchange.total_eq⟩

/-! ### Single sessions -/

/-- A session that has its prover to itself advances as it does on its own. -/
theorem run_single (p : SessionProver) {segments : List Segment} (hne : segments ≠ [])
    (schedule : List Nat) :
    (idle p).run (.prove segments :: schedule.map (.advance 0)) =
      { prover := { p with
          budget := (p.after segments schedule).budget
          cancellations := (p.after segments schedule).cancellations }
        sessions := [(p.sessionToken, p.after segments schedule)] } := by
  -- the session and its prover agree on the budget and the cancellations
  have hadvances (s : SessionState) (schedule : List Nat) :
      ({ prover := { p with budget := s.budget, cancellations := s.cancellations }
         sessions := [(p.sessionToken, s)] } : Workload).run (schedule.map (.advance 0)) =
      { prover := { p with
          budget := (s.run p.sessionToken p.options schedule).budget
          cancellations := (s.run p.sessionToken p.options schedule).cancellations }
        sessions := [(p.sessionToken, s.run p.sessionToken p.options schedule)] } := by
    induction schedule generalizing s with
    | nil => rfl
    | cons position schedule ih => exact ih (s.advance p.sessionToken p.options position)
  have hstart : (idle p).step (.prove segments) =
      { prover := { p with
          budget := (p.session segments).budget
          cancellations := (p.session segments).cancellations }
        sessions := [(p.sessionToken, p.session segments)] } := by
    rw [step, if_neg (by simpa using hne)]
    rfl
  rw [run, List.foldl_cons, hstart, ← run]
  exact hadvances (p.session segments) schedule

/-- Proving a session with a single worker is a workload of one session, at whose end no jobs are
outstanding. -/
theorem exists_run_eq_proveSession {p : SessionProver} {total : Nat}
    (hfull : p.budget = .full total) {segments : List Segment} (hne : segments ≠ []) :
    ∃ (schedule : List Nat) (s : SessionState),
      (idle p).run (.prove segments :: schedule.map (.advance 0)) =
        { prover := (p.proveSession segments).2, sessions := [(p.sessionToken, s)] } ∧
      s.outstanding = [] ∧ s.result = (p.proveSession segments).1 := by
  obtain ⟨schedule, hended, hinorder⟩ := SessionProver.exists_ended_schedule hfull hne
  refine ⟨schedule, p.after segments schedule, ?_, hended, ?_⟩
  · rw [run_single p hne, SessionProver.proveSession_eq hne, hinorder]
  · rw [SessionProver.proveSession_eq hne, hinorder]

/-! ### Conservation -/

/-- What holds at any time of a budget with so many bytes. -/
structure Conserved (total : Nat) (w : Workload) : Prop where
  total_eq : w.prover.budget.total = total
  /-- What is available and what the live permits are for make up the budget. -/
  balanced : w.prover.budget.available + w.livePermits.sum = total
  /-- Nothing is taken that is not there, and no other changes occur. -/
  change : ∀ event, Change w.prover.budget w.livePermits (w.step event).prover.budget
    (w.step event).livePermits
  /-- There is room for what comes back. -/
  gives : ∀ bytes ∈ w.livePermits, w.prover.budget.available + bytes ≤ total
  /-- What is too large, and what is asked for by the cancelled, changes nothing. -/
  refused : ∀ bytes token,
    total < bytes ∨ w.prover.cancellations.isCancelled token = true →
      w.step (.acquire bytes token) = w
  /-- The same goes for the jobs of sessions. -/
  refused_job : ∀ (session position : Nat) (token : CancellationToken) (s : SessionState)
    (task : Task) (job : Job), w.sessions[session]? = some (token, s) →
    s.outstanding[position]? = some task → task.state = .queued job →
    (∃ bytes, job.demand w.prover.options = some bytes ∧ total < bytes.toNat) ∨
      w.prover.cancellations.isCancelled token = true →
      (w.step (.advance session position)).prover.budget = w.prover.budget ∧
        (w.step (.advance session position)).livePermits = w.livePermits
  /-- A session that has ended has returned its permits. -/
  returned : ∀ entry ∈ w.sessions, entry.2.outstanding = [] → entry.2.permits = []
  /-- If nothing else goes on, the budget is then full. -/
  full_of_returned : (∀ entry ∈ w.sessions, entry.2.outstanding = []) → w.permits = [] →
    w.prover.budget = .full total

/-- A job of a session that is not granted its memory leaves the permits as they are. -/
theorem step_advance_of_refused {session position : Nat} {token : CancellationToken}
    {s : SessionState} {task : Task} {job : Job} (hentry : w.sessions[session]? = some (token, s))
    (htask : s.outstanding[position]? = some task) (hjob : task.state = .queued job)
    (hrefused : (∃ bytes, job.demand w.prover.options = some bytes ∧
        w.prover.budget.total < bytes.toNat) ∨
      w.prover.cancellations.isCancelled token = true) :
    (w.step (.advance session position)).prover.budget = w.prover.budget ∧
      (w.step (.advance session position)).livePermits = w.livePermits := by
  obtain ⟨hbudget, hpermits⟩ :=
    SessionState.advance_of_refused (s := w.share s) htask hjob hrefused
  rw [step, hentry]
  refine ⟨hbudget, ?_⟩
  obtain ⟨before, after, hwas, his⟩ := livePermits_set hentry
    { w.prover with
      budget := ((w.share s).advance token w.prover.options position).budget
      cancellations := ((w.share s).advance token w.prover.options position).cancellations }
    (token, (w.share s).advance token w.prover.options position)
  rw [hwas]
  dsimp only
  rw [his, hpermits]
  rfl

/-- A balanced budget is conserved. -/
theorem conserved_of_balanced {total : Nat} (htotal : w.prover.budget.total = total)
    (hbalanced : w.prover.budget.Balanced w.livePermits) : w.Conserved total where
  total_eq := htotal
  balanced := hbalanced.trans htotal
  change := w.change_step
  gives bytes hbytes := htotal ▸ hbalanced.available_add_le hbytes
  refused bytes token hrefused := by
    obtain ⟨cause, hacquire⟩ := MemoryBudget.exists_refused (htotal.symm ▸ hrefused)
    rw [step, hacquire]
  refused_job _ _ _ _ _ _ hentry htask hjob hrefused :=
    step_advance_of_refused hentry htask hjob (htotal.symm ▸ hrefused)
  returned _ _ hended := SessionState.permits_eq_nil hended
  full_of_returned hended hpermits := by
    have hlive : w.livePermits = [] := by
      rw [livePermits, hpermits, List.append_nil, List.flatMap_eq_nil_iff]
      exact fun entry hentry => SessionState.permits_eq_nil (hended entry hentry)
    rw [hlive] at hbalanced
    exact hbalanced.eq_full.trans (congrArg MemoryBudget.full htotal)

/-- **The memory budget is conserved.** Over a prover whose budget is full, sessions may begin,
their jobs may advance, memory may be asked for and permits dropped, and tokens may be cancelled, in
any order. At any time what is available and what the live permits are for make up the budget, so
that there is what is taken, and room for what comes back. What is refused changes nothing. A
session that has ended has returned its permits, whatever its result, and when nothing else goes on
the budget is full. Proving a session with a single worker always comes to such an end. -/
theorem budget_conserved {p : SessionProver} {total : UInt64}
    (hfull : p.budget = .full total.toNat) :
    (∀ events, ((idle p).run events).Conserved total.toNat) ∧
    (∀ segments ≠ [], ∃ (schedule : List Nat) (s : SessionState),
      (idle p).run (.prove segments :: schedule.map (.advance 0)) =
        { prover := (p.proveSession segments).2, sessions := [(p.sessionToken, s)] } ∧
      s.outstanding = [] ∧ s.result = (p.proveSession segments).1) ∧
    ∀ segments, (p.proveSession segments).2.budget = .full total.toNat := by
  refine ⟨fun events => ?_, fun segments => exists_run_eq_proveSession hfull,
    SessionProver.budget_proveSession hfull⟩
  have hbalanced : p.budget.Balanced (idle p).livePermits := by
    rw [hfull]
    exact MemoryBudget.balanced_full _
  obtain ⟨hbalanced', htotal⟩ := balanced_run (w := idle p) hbalanced events
  exact conserved_of_balanced (htotal.trans (congrArg MemoryBudget.total hfull)) hbalanced'

end Workload

/-! ### A budget of a hundred bytes -/

namespace HundredBytes

/-- A prover with little memory, of which a segment takes more than half. -/
def prover : SessionProver where
  options := { workers := 2, memoryBudget := 100, segmentMemory := some 60 }
  budget := .full 100
  cancellations := { issued := 1 }
  token := ⟨0, []⟩

/-- Only the first of these requests is granted: the second waits, the third is too large, and the
last is cancelled. -/
def requests : List Workload.Event :=
  [.acquire 60 prover.token, .acquire 60 prover.token, .acquire 101 prover.token,
    .cancel prover.token, .acquire 10 prover.token]

/-- A segment under parameters that are out of range. -/
def segment : Segment where
  index := 0
  startCommitment := .zero
  endCommitment := .zero
  instructionCount := 0
  exitCode := .halted 0
  outputDigest := .zero
  params := { memoryBits := 31 }
  configDigest := .zero
  trace := ⟨⟨0, .replicate 32 0⟩, .empty {}, {}, []⟩

/-- A session of two such segments: the first one reserves its memory, for which the second one has
to wait. -/
def begun : List Workload.Event := [.prove [segment, segment], .advance 0 0, .advance 0 1]

/-- The first segment fails, and the second one is cancelled. -/
def ended : List Workload.Event := begun ++ [.advance 0 0, .advance 0 0]

theorem livePermits_begun : ((Workload.idle prover).run begun).livePermits = [60] := rfl

theorem sessions_ended : ((Workload.idle prover).run ended).sessions.map
    (fun entry => (entry.2.outstanding.length, entry.2.failure)) =
      [(0, some (.reported (.prover (.params (.memoryBits 31)))))] := rfl

end HundredBytes

open HundredBytes in
/-- Sixty of a hundred bytes are reserved, and are available again once their permit is dropped, and
once the session that reserved them has failed. -/
theorem Workload.budget_conserved_hundred :
    HundredBytes.prover.budget = .full (100 : UInt64).toNat ∧
    ((idle HundredBytes.prover).run requests).livePermits = [60] ∧
    ((idle HundredBytes.prover).run requests).Conserved 100 ∧
    ((idle HundredBytes.prover).run (requests ++ [.drop 0])).prover.budget = .full 100 ∧
    ((idle HundredBytes.prover).run begun).livePermits = [60] ∧
    ((idle HundredBytes.prover).run begun).Conserved 100 ∧
    (∀ entry ∈ ((idle HundredBytes.prover).run ended).sessions, entry.2.failure.isSome) ∧
    ((idle HundredBytes.prover).run ended).prover.budget = .full 100 ∧
    ∀ segments, (HundredBytes.prover.proveSession segments).2.budget = .full 100 := by
  have hfull : HundredBytes.prover.budget = .full (100 : UInt64).toNat := rfl
  obtain ⟨hconserved, -, hsessions⟩ := budget_conserved hfull
  simp only [UInt64.reduceToNat] at hconserved hsessions
  have hpermits : ((idle HundredBytes.prover).run requests).livePermits = [60] := rfl
  have hnone : ((idle HundredBytes.prover).run (requests ++ [.drop 0])).sessions = [] := rfl
  have hreturned := (hconserved (requests ++ [.drop 0])).full_of_returned (by simp [hnone]) rfl
  have hentries : ∀ entry ∈ ((idle HundredBytes.prover).run ended).sessions,
      (entry.2.outstanding.length, entry.2.failure) =
        (0, some (.reported (.prover (.params (.memoryBits 31))))) := fun entry hentry =>
    List.mem_singleton.mp (sessions_ended ▸ List.mem_map_of_mem hentry)
  have hempty := (hconserved ended).full_of_returned (fun entry hentry =>
    List.eq_nil_of_length_eq_zero (Prod.mk.inj (hentries entry hentry)).1) rfl
  refine ⟨hfull, hpermits, hconserved requests, hreturned, livePermits_begun, hconserved begun,
    fun entry hentry => ?_, hempty, hsessions⟩
  rw [(Prod.mk.inj (hentries entry hentry)).2]
  rfl

end ReplayVM
