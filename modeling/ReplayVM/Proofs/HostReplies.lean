import ReplayVM.Proofs.SegmentSoundness
import ReplayVM.Proofs.Stretches

/-!
# Answers of the host and inputs

The rows of a seal carry the answers of the host, and verification takes them as they are: it checks
that an instruction that asks has an answer and that no other instruction has one, not that the
answers come from an input. They do exactly when they keep count of the bytes that are left. A
machine that runs on such an input does what the claim says and gets the very answers of the rows.

## Main definitions

* `SegmentSeal.calls`: the calls of the host in a seal, with their answers.
* `Input.Answers`: an input that gives some answers.
* `KeepsCount`: answers that keep count of the bytes that are left.

## Main results

* `keepsCount_iff`: answers come from an input exactly when they keep count.
* `Live.exists_stretch`: a machine with an input that gives the answers runs along the rows.
* `SegmentReceipt.answers_of_verify`: what the answers in an accepted receipt are.
-/

namespace ReplayVM

/-! ### Inputs -/

/-- An input that gives some answers when it is asked the calls in order. -/
def Input.Answers : Input → List (HostCall × HostReply) → Prop
  | _, [] => True
  | i, (request, reply) :: calls =>
    (i.answer request).1 = reply ∧ (i.answer request).2.Answers calls

/-- An answer that can be given when so many bytes are left: a word of the bytes that are read with
their number, or the number of bytes that are left. -/
def HostCall.AnsweredBy : HostCall → (left : Nat) → HostReply → Prop
  | .read, left, a => a.a1.toNat = min 4 left ∧ a.a0.toNat < 1 <<< (8 * min 4 left)
  | .inputLen, left, a => a.a0 = left.toUInt32 ∧ a.a1 = 0

/-- The number of bytes that are left behind a call. -/
def HostCall.leftBehind : HostCall → (left : Nat) → Nat
  | .read, left => left - 4
  | .inputLen, left => left

/-- Answers that keep count of the bytes that are left. -/
def KeepsCount : (left : Nat) → List (HostCall × HostReply) → Prop
  | _, [] => True
  | left, (request, reply) :: calls =>
    request.AnsweredBy left reply ∧ KeepsCount (request.leftBehind left) calls

/-- An input gives answers that its length allows. -/
theorem Input.answeredBy_answer (i : Input) (request : HostCall) :
    request.AnsweredBy i.unread.length (i.answer request).1 ∧
      (i.answer request).2.unread.length = request.leftBehind i.unread.length := by
  cases request with
  | inputLen => exact ⟨⟨rfl, rfl⟩, rfl⟩
  | read =>
    have hlen : (i.unread.take 4).length = min 4 i.unread.length := List.length_take
    have hlt := Bytes.leValue_lt (i.unread.take 4)
    have hword : 1 <<< (8 * min 4 i.unread.length) ≤ 4294967296 := by
      rw [Nat.one_shiftLeft]
      exact Nat.pow_le_pow_right (show 0 < 2 by omega) (show 8 * min 4 _ ≤ 32 by omega)
    rw [hlen] at hlt
    refine ⟨⟨?_, ?_⟩, (congrArg List.length i.unread_read).trans List.length_drop⟩
    · change (i.unread.take 4).length.toUInt32.toNat = _
      rw [hlen, UInt32.toNat_ofNat']
      omega
    · change (Bytes.leValue (i.unread.take 4)).toUInt32.toNat < _
      rw [UInt32.toNat_ofNat', Nat.mod_eq_of_lt (by omega)]
      exact hlt

/-- What an input answers, and what it has left then, depends on its unread bytes alone. -/
theorem Input.answer_congr {i j : Input} (h : i.unread = j.unread) (request : HostCall) :
    (i.answer request).1 = (j.answer request).1 ∧
      (i.answer request).2.unread = (j.answer request).2.unread := by
  cases request with
  | read =>
    refine ⟨?_, i.unread_read.trans ((congrArg (List.drop 4) h).trans j.unread_read.symm)⟩
    simp only [answer, read, h]
  | inputLen => exact ⟨by simp only [answer, h], h⟩

theorem Input.Answers.congr {i j : Input} {calls : List (HostCall × HostReply)}
    (hanswers : i.Answers calls) (h : i.unread = j.unread) : j.Answers calls := by
  induction calls generalizing i j with
  | nil => trivial
  | cons call calls ih =>
    obtain ⟨hreply, hbehind⟩ := answer_congr h call.1
    exact ⟨hreply.symm.trans hanswers.1, ih hanswers.2 hbehind⟩

/-- Every answer that a number of bytes allows is given by some bytes in front of any others. -/
theorem Input.exists_answer {request : HostCall} {left : Nat} {reply : HostReply}
    (h : request.AnsweredBy left reply) (rest : Bytes)
    (hrest : rest.length = request.leftBehind left) :
    ∃ front : Bytes, let i : Input := { bytes := front ++ rest }
      i.unread.length = left ∧ (i.answer request).1 = reply ∧
        (i.answer request).2.unread = rest := by
  cases request with
  | inputLen =>
    refine ⟨[], hrest, ?_, rfl⟩
    obtain ⟨ha0, ha1⟩ := h
    simp [answer, unread, hrest, HostCall.leftBehind, ← ha0, ← ha1]
  | read =>
    obtain ⟨ha1, ha0⟩ := h
    change rest.length = left - 4 at hrest
    have hfront : (Bytes.le (min 4 left) reply.a0.toNat).length = min 4 left := Bytes.length_le _ _
    refine ⟨Bytes.le (min 4 left) reply.a0.toNat, ?_, ?_, ?_⟩
    · rw [unread, List.drop_zero, List.length_append, hfront]
      omega
    · -- Fewer than four bytes are in front only when nothing is behind them.
      have htake : (Bytes.le (min 4 left) reply.a0.toNat ++ rest).take 4 =
          Bytes.le (min 4 left) reply.a0.toNat := by
        by_cases hfour : 4 ≤ left
        · rw [List.take_append_of_le_length (by omega), List.take_of_length_le (by omega)]
        · rw [List.eq_nil_of_length_eq_zero (l := rest) (by omega), List.append_nil,
            List.take_of_length_le (by omega)]
      have hvalue : Bytes.toWord (Bytes.le (min 4 left) reply.a0.toNat) = reply.a0 := by
        rw [Bytes.toWord, Bytes.leValue_le ha0]
        exact UInt32.ofNat_toNat
      have hcount : (min 4 left).toUInt32 = reply.a1 := by
        rw [← ha1]
        exact UInt32.ofNat_toNat
      simp only [answer, read, unread, List.drop_zero, htake, hvalue, hfront, hcount]
    · rw [answer, unread_read, unread, List.drop_zero]
      by_cases hfour : 4 ≤ left
      · exact List.drop_left' (by omega)
      · rw [List.eq_nil_of_length_eq_zero (l := rest) (by omega), List.append_nil]
        exact List.drop_of_length_le (Nat.le_trans (Nat.le_of_eq hfront) (Nat.min_le_left _ _))

/-- Answers keep count of a number of bytes exactly when an input with so many unread bytes gives
them. -/
theorem keepsCount_iff {left : Nat} {calls : List (HostCall × HostReply)} : KeepsCount left calls ↔
    ∃ i : Input, i.InRange ∧ i.unread.length = left ∧ i.Answers calls := by
  induction calls generalizing left with
  | nil =>
    exact iff_of_true trivial
      ⟨{ bytes := List.replicate left 0 }, Nat.zero_le _, List.length_replicate, trivial⟩
  | cons call calls ih =>
    obtain ⟨request, reply⟩ := call
    rw [KeepsCount, ih]
    constructor
    · rintro ⟨hallowed, rest, -, hrest, hanswers⟩
      obtain ⟨front, hlen, hreply, hbehind⟩ := Input.exists_answer hallowed rest.unread hrest
      exact ⟨_, Nat.zero_le _, hlen, hreply, hanswers.congr hbehind.symm⟩
    · rintro ⟨i, hrange, rfl, rfl, hanswers⟩
      obtain ⟨hallowed, hlen⟩ := i.answeredBy_answer request
      exact ⟨hallowed, _, hrange.answer request, hlen, hanswers⟩

/-! ### Calls of rows -/

/-- The call of the host that the instruction of a row makes, with its answer. -/
def Row.call (params : Params) (r : Row) : Option (HostCall × HostReply) :=
  (r.request params).bind fun request => r.host.map fun reply => (request, reply)

/-- The calls of the host in a seal, with their answers. The last row holds the end state, and its
instruction is not executed. -/
def SegmentSeal.calls (s : SegmentSeal) : List (HostCall × HostReply) :=
  s.rows.dropLast.filterMap (Row.call s.params)

/-! ### Steps on an input -/

/-- What an input gives when it is asked for something or for nothing. -/
def Input.given (i : Input) (request : Option HostCall) : List HostReply :=
  request.toList.map fun request => (i.answer request).1

/-- The input behind a call, if there is one. -/
def Input.behind (i : Input) (request : Option HostCall) : Input :=
  request.elim i fun request => (i.answer request).2

/-- An effect on memory and input is the effect on memory and the answers that the input gives. -/
theorem Effect.run_world (effect : Effect) (w : World) (rest : List HostReply) :
    effect.run Scripted.bus ⟨w.memory, w.input.given effect.asks ++ rest⟩ =
        ⟨(effect.run World.bus w).result, (effect.run World.bus w).machine,
          ⟨(effect.run World.bus w).bus.memory, rest⟩⟩ ∧
      (effect.run World.bus w).bus.input = w.input.behind effect.asks ∧
      (effect.run World.bus w).bus.replies =
        w.replies ++ (w.input.given effect.asks).toArray := by
  cases effect with
  | finish | load | store => exact ⟨rfl, rfl, by simp [Effect.run, World.bus, Input.given, asks]⟩
  | call request next =>
    exact ⟨rfl, rfl, by simp [Effect.run, World.bus, Input.given, asks]⟩

namespace Live

variable {s t : Live} {p q : Playback} {outcome : StepOutcome} {reason : FaultReason}
  {outcomes : List StepOutcome} {rest : List HostReply} {rows : List Row}

/-- What the next instruction of a running machine asks of the host, if it asks for anything. -/
def request (s : Live) : Option HostCall := (s.playback []).request s.params

/-- A running machine steps as one whose host gives prepared answers, when these are the ones that
its input gives. -/
theorem follow_playback (s : Live) (rest : List HostReply) :
    (s.playback (s.world.input.given s.request ++ rest)).follow s.params =
        ((s.machine.step World.bus s.params s.world).result,
          ⟨(s.machine.step World.bus s.params s.world).machine,
            (s.machine.step World.bus s.params s.world).bus.memory, rest⟩) ∧
      (s.machine.step World.bus s.params s.world).bus.input = s.world.input.behind s.request ∧
      (s.machine.step World.bus s.params s.world).bus.replies =
        s.world.replies ++ (s.world.input.given s.request).toArray := by
  generalize hreplies : s.world.input.given s.request ++ rest = replies
  cases hf : Machine.canFetch s.params s.machine.cpu.pc with
  | false =>
    have hrequest : s.request = none := if_neg (Bool.eq_false_iff.mp hf)
    have hfollow : (s.playback replies).follow s.params = _ := Playback.follow_of_not_canFetch hf
    rw [hfollow, Machine.step_of_not_canFetch hf, ← hreplies, hrequest]
    exact ⟨rfl, rfl, by simp [Input.given]⟩
  | true =>
    have hrequest : s.request =
        s.machine.request s.params (s.world.memory.loadWord s.machine.cpu.pc) := if_pos hf
    cases hp : s.machine.plan s.params (s.world.memory.loadWord s.machine.cpu.pc) with
    | error found =>
      rw [Machine.request, hp] at hrequest
      have hfollow : (s.playback replies).follow s.params = (.error found, s.playback replies) :=
        Playback.follow_of_plan_error hf hp
      have hstep : s.machine.step World.bus s.params s.world =
          ⟨.error found, s.machine, s.world⟩ := Machine.step_of_plan_error hf hp
      rw [hfollow, hstep, ← hreplies, hrequest]
      exact ⟨rfl, rfl, by simp [Input.given]⟩
    | ok effect =>
      rw [Machine.request, hp] at hrequest
      obtain ⟨hrun, hinput, hgiven⟩ := effect.run_world s.world rest
      have hstep : s.machine.step World.bus s.params s.world = effect.run World.bus s.world :=
        Machine.step_of_plan_ok hf hp
      have hfollow : (s.playback replies).follow s.params =
          let r := effect.run Scripted.bus (s.playback replies).scripted
          (r.result, ⟨r.machine, r.bus.memory, r.bus.replies⟩) :=
        Playback.follow_of_plan_ok hf hp
      have hscripted : (s.playback replies).scripted =
          ⟨s.world.memory, s.world.input.given effect.asks ++ rest⟩ := by
        rw [← hreplies, hrequest]
        rfl
      rw [hscripted, hrun] at hfollow
      rw [hfollow, hstep, hrequest]
      exact ⟨rfl, hinput, hgiven⟩

/-- A running machine faults as one whose host gives prepared answers. -/
theorem step_of_follow_error {replies : List HostReply}
    (h : ((s.playback replies).follow s.params).1 = .error reason) :
    s.step = (.error reason, s) := by
  have hstep : (s.machine.step World.bus s.params s.world).result = .error reason := by
    cases hf : Machine.canFetch s.params s.machine.cpu.pc with
    | false =>
      have hfollow : (s.playback replies).follow s.params = _ := Playback.follow_of_not_canFetch hf
      rw [hfollow] at h
      rw [Machine.step_of_not_canFetch hf]
      exact h
    | true =>
      cases hp : s.machine.plan s.params (s.world.memory.loadWord s.machine.cpu.pc) with
      | error found =>
        have hfollow : (s.playback replies).follow s.params = _ :=
          Playback.follow_of_plan_error hf hp
        have hstep : s.machine.step World.bus s.params s.world =
            ⟨.error found, s.machine, s.world⟩ := Machine.step_of_plan_error hf hp
        rw [hfollow] at h
        rw [hstep]
        exact h
      | ok effect =>
        obtain ⟨outcome, ho⟩ := effect.run_result Scripted.bus (s.playback replies).scripted
        have hfollow : (s.playback replies).follow s.params = _ := Playback.follow_of_plan_ok hf hp
        rw [hfollow] at h
        simp [ho] at h
  exact step_of_result_error hstep

/-- A running machine takes one step along a row when its input gives the answer of the row. -/
theorem exists_step_along {row : Row} (hp : s.playback p.replies = p)
    (hrequest : row.request s.params = p.request s.params)
    (hhost : row.host.isSome = (row.request s.params).isSome)
    (hreplies : p.replies = row.host.toList ++ q.replies)
    (h : p.follow s.params = (.ok outcome, q))
    (hanswers : s.world.input.Answers ((row :: rows).filterMap (Row.call s.params))) :
    ∃ t, s.step = (.ok outcome, t) ∧ t.params = s.params ∧ t.playback q.replies = q ∧
      t.world.input.Answers (rows.filterMap (Row.call s.params)) ∧
      t.world.replies = s.world.replies ++ row.host.toList.toArray := by
  have hasked : row.request s.params = s.request := by
    rw [hrequest, ← hp]
    rfl
  -- The answer of the row is the one that the input gives.
  have hgiven : s.world.input.given s.request = row.host.toList ∧
      (s.world.input.behind s.request).Answers (rows.filterMap (Row.call s.params)) := by
    rw [hasked] at hhost
    cases hr : s.request with
    | none =>
      rw [hr, Option.isSome_none, Option.isSome_eq_false_iff, Option.isNone_iff_eq_none] at hhost
      have hcall : row.call s.params = none := by rw [Row.call, hasked, hr, Option.bind_none]
      rw [List.filterMap_cons_none hcall] at hanswers
      exact ⟨by rw [hhost]; rfl, hanswers⟩
    | some request =>
      rw [hr, Option.isSome_some] at hhost
      obtain ⟨reply, hreply⟩ := Option.isSome_iff_exists.mp hhost
      have hcall : row.call s.params = some (request, reply) := by
        rw [Row.call, hasked, hr, hreply]
        rfl
      rw [List.filterMap_cons_some hcall] at hanswers
      exact ⟨by rw [hreply, ← hanswers.1]; rfl, hanswers.2⟩
  obtain ⟨hgive, hbehind⟩ := hgiven
  obtain ⟨hfollow, hinput, hnew⟩ := s.follow_playback q.replies
  rw [hgive, ← hreplies, hp, h, Prod.mk.injEq] at hfollow
  rw [hgive] at hnew
  obtain ⟨hresult, hq⟩ := hfollow
  have hstep : s.step = (.ok outcome, { s with
      machine := (s.machine.step World.bus s.params s.world).machine
      world := (s.machine.step World.bus s.params s.world).bus
      journal := s.journal ++
        written s.machine (s.machine.step World.bus s.params s.world).machine
      cycles := s.cycles + 1 }) := by
    simp only [step, ← hresult]
  exact ⟨_, hstep, rfl, hq.symm, hinput ▸ hbehind, hnew⟩

/-- A running machine makes up a stretch along rows when its input gives their answers. -/
theorem exists_stretch (h : p.Along s.params rows outcomes q) (hp : s.playback p.replies = p)
    (hanswers : s.world.input.Answers (rows.filterMap (Row.call s.params))) {exit : ExitCode}
    (hnext : ∀ outcome ∈ outcomes.dropLast, outcome = .next)
    (hends : exit.EndsWith outcomes.getLast?)
    (hfault : ∀ reason, exit = .fault reason → reason ≠ .sessionLimitExceeded →
      q.follow s.params = (.error reason, q)) :
    ∃ t, s.Stretch exit outcomes.length t ∧ t.playback q.replies = q ∧
      t.world.replies = s.world.replies ++ (rows.filterMap Row.host).toArray := by
  generalize hparams : s.params = params at h hanswers hfault
  induction h generalizing s with
  | done p =>
    refine ⟨s, ?_, hp, by simp⟩
    cases exit with
    | halted | paused | systemSplit => simp [ExitCode.EndsWith] at hends
    | fault reason =>
      by_cases hlimit : reason = .sessionLimitExceeded
      · exact hlimit ▸ .limit s
      · have hfollow := hfault reason rfl hlimit
        subst hparams
        rw [← hp] at hfollow
        exact .fault (step_of_follow_error (congrArg Prod.fst hfollow))
  | @step p q r row rows outcome outcomes hstate hrequest hhost hreplies hfollow halong ih =>
    subst hparams
    obtain ⟨t, hstep, hparams, hq, hanswers', hnew⟩ :=
      exists_step_along hp hrequest hhost hreplies hfollow hanswers
    have hhosts : t.world.replies ++ (rows.filterMap Row.host).toArray =
        s.world.replies ++ ((row :: rows).filterMap Row.host).toArray := by
      rw [hnew, List.filterMap_cons]
      cases row.host <;> simp
    by_cases hlast : outcomes = [] ∧ exit.needsInstruction = true
    · obtain ⟨rfl, hneeds⟩ := hlast
      obtain ⟨rfl, rfl⟩ : rows = [] ∧ r = q := by
        cases halong
        exact ⟨rfl, rfl⟩
      have hallows : exit.allowsLast outcome = true := by
        cases exit <;> simp_all [ExitCode.EndsWith, ExitCode.allowsLast, ExitCode.needsInstruction]
      refine ⟨t, .last hstep hneeds hallows, hq, ?_⟩
      simpa using hhosts
    · have hgoes : outcome = .next ∧ exit.EndsWith outcomes.getLast? := by
        cases outcomes with
        | nil =>
          cases exit <;> simp_all [ExitCode.EndsWith, ExitCode.needsInstruction]
        | cons second outcomes =>
          refine ⟨hnext outcome (by simp), ?_⟩
          rwa [List.getLast?_cons_cons] at hends
      obtain ⟨rfl, hends'⟩ := hgoes
      have hnext' : ∀ outcome ∈ outcomes.dropLast, outcome = .next := by
        intro outcome h
        refine hnext outcome ?_
        cases outcomes with
        | nil => simp at h
        | cons second outcomes =>
          rw [List.dropLast_cons_of_ne_nil (by simp)]
          exact List.mem_cons_of_mem _ h
      obtain ⟨u, hstretch, hu, hreplies'⟩ := ih hq hnext' hends' hparams hanswers' hfault
      exact ⟨u, .next hstep hstretch, hu, hreplies'.trans hhosts⟩

end Live

/-! ### Receipts -/

/-- Rows that follow each other are replayed, but for the last one. -/
theorem SegmentClaim.RowsFollow.exists_replay {c : SegmentClaim} {params : Params} {index : Nat}
    {rows : List Row} (h : c.RowsFollow params index rows) :
    ∀ row ∈ rows.dropLast, ∃ result, row.replay params = .ok result := by
  induction rows generalizing index with
  | nil => simp
  | cons first rows ih =>
    cases rows with
    | nil => simp
    | cons second rows =>
      obtain ⟨⟨outcome, next, hreplay, -, -⟩, hrest⟩ := h
      rw [List.dropLast_cons_of_ne_nil (by simp)]
      intro row hrow
      rcases List.mem_cons.mp hrow with rfl | hrow
      · exact ⟨_, hreplay⟩
      · exact ih hrest row hrow

/-- The rows of a proven claim that are replayed are replayed without an error. -/
theorem SegmentClaim.ProvenBy.exists_replay {c : SegmentClaim} {s : SegmentSeal}
    (h : c.ProvenBy s) : ∀ row ∈ c.replayed s.rows, ∃ result, row.replay s.params = .ok result := by
  intro row hrow
  unfold replayed at hrow
  split at hrow
  · rename_i hfault
    obtain ⟨reason, hreason⟩ := Option.isSome_iff_exists.mp hfault
    have hne := List.ne_nil_of_mem hrow
    rw [← List.dropLast_append_getLast hne] at hrow
    rcases List.mem_append.mp hrow with hfront | hend
    · exact h.rows_follow.exists_replay row hfront
    · obtain rfl := List.mem_singleton.mp hend
      obtain ⟨next, hreplay⟩ :=
        h.fault_follows _ (List.getLast?_eq_some_getLast hne) reason hreason
      exact ⟨_, hreplay⟩
  · exact h.rows_follow.exists_replay row hrow

/-- In an accepted receipt the replayed instructions that ask the host are those that have an
answer. The answers come from an input exactly when they keep count of its bytes. A machine that
starts in the claimed state on an input that gives the answers does what the claim says, and gets
them, unless byte strings that are hashed on both sides collide. The last row is replayed only for
the fault of its instruction; otherwise nothing is asked in it, whatever it carries. -/
theorem SegmentReceipt.answers_of_verify {r : SegmentReceipt} {s : SegmentSeal}
    (hverify : r.verify = .ok ()) (hseal : r.decodeSeal = .ok s) :
    (∀ row ∈ r.claim.replayed s.rows, row.host.isSome = (row.request s.params).isSome) ∧
    (∀ left, (∃ i : Input, i.InRange ∧ i.unread.length = left ∧ i.Answers s.calls) ↔
      KeepsCount left s.calls) ∧
    ∀ l : Live, l.params = s.params → l.world.memory.WellFormedFor s.params →
      l.state.commitment = r.claim.startCommitment → l.world.input.Answers s.calls →
      CollisionFree (r.claim.Hashed s (l.playback s.replies)) →
      ∃ t, l.Stretch r.claim.exitCode r.claim.instructionCount.toNat t ∧
        t.state.commitment = r.claim.endCommitment ∧
        t.machine.output.digest = r.claim.outputDigest ∧
        t.world.replies = l.world.replies ++ s.replies.toArray := by
  obtain ⟨s', hs', hproven⟩ := verify_eq_ok_iff.mp hverify
  obtain rfl : s = s' := Except.ok.inj (hseal.symm.trans hs')
  refine ⟨fun row hrow => ?_, fun left => keepsCount_iff.symm,
    fun l hparams hm hstart hanswers hfree => ?_⟩
  · obtain ⟨result, hreplay⟩ := hproven.exists_replay row hrow
    exact Row.isSome_host_of_replay hreplay
  · obtain ⟨outcomes, q, halong, htrue, -⟩ := hproven.exists_along hfree (fun x hx => hx)
      (p := l.playback s.replies) hm hstart (List.append_nil s.replies).symm
    have hfault := htrue.faults
    rw [← hparams] at halong hfault
    obtain ⟨t, hstretch, hq, hreplies⟩ := Live.exists_stretch halong rfl
      (by rw [hparams]; exact hanswers) htrue.goes_on htrue.ends hfault
    have hstate : t.state = q.state := congrArg Playback.state hq
    have hmachine : t.machine = q.machine := congrArg Playback.machine hq
    refine ⟨t, htrue.length_outcomes ▸ hstretch, ?_, ?_, hreplies⟩
    · rw [hstate]
      exact htrue.end_eq
    · rw [hmachine]
      exact htrue.output_eq

/-! ### A guest that asks -/

namespace AskingGuest

open HaltingGuest (params memory)

/-- A machine that is about to read its input, on the memory of the guest that halts. -/
def start : Machine := ((Program.machineAt params minMemory).setReg .a7 3).advance

/-- The machine behind the call, with an answer. -/
def answered (reply : HostReply) : Machine :=
  { start with cpu := (start.cpu.overwrite .a0 reply.a0).overwrite .a1 reply.a1 }.advance

/-- The row of the call. -/
def row (reply : HostReply) : Row where
  state := .of start memory.root
  fetch := some ⟨start.cpu.pc, memory.loadWord start.cpu.pc, memory.path start.cpu.pc⟩
  host := some reply

/-- The rows of the segment of the call. -/
def rows (reply : HostReply) : List Row :=
  [row reply, { state := .of (answered reply) memory.root }]

/-- The seal of the segment of the call. -/
def sealOf (reply : HostReply) : SegmentSeal :=
  ⟨params, traceRoot ((rows reply).map Row.digest), rows reply⟩

/-- The receipt of the segment of the call. -/
def receipt (reply : HostReply) : SegmentReceipt where
  claim := ⟨params.configDigest, 0, (SystemState.of start memory.root).commitment,
    (SystemState.of (answered reply) memory.root).commitment, 1, .systemSplit, .zero⟩
  sealBytes := SegmentSeal.format.encode (sealOf reply)

theorem isWordAddr_start : memory.IsWordAddr start.cpu.pc :=
  HaltingGuest.isWordAddr rfl rfl (by decide)

theorem plan_start :
    start.plan params (memory.loadWord start.cpu.pc) = .ok (.call .read answered) := by
  rw [HaltingGuest.loadWord_memory rfl (by decide)]
  rfl

theorem calls_sealOf (reply : HostReply) : (sealOf reply).calls = [(.read, reply)] := by
  have hrequest : (row reply).request params = some .read := by
    simp only [Row.request, row, Option.bind_some, SystemState.machine_of, Machine.request,
      plan_start, Effect.asks]
  have hcall : (row reply).call params = some (.read, reply) := by
    rw [Row.call, hrequest]
    rfl
  have hrows : (sealOf reply).rows.dropLast = [row reply] := rfl
  rw [SegmentSeal.calls, hrows, show (sealOf reply).params = params from rfl,
    List.filterMap_cons_some hcall, List.filterMap_nil]

/-- The row of a call is replayed with any answer. -/
theorem replay_call {m : Machine} {request : HostCall} {next : HostReply → Machine}
    (hf : Machine.canFetch params m.cpu.pc = true) (ha : memory.IsWordAddr m.cpu.pc)
    (hp : m.plan params (memory.loadWord m.cpu.pc) = .ok (.call request next)) (reply : HostReply) :
    Row.replay params ⟨.of m memory.root,
      some ⟨m.cpu.pc, memory.loadWord m.cpu.pc, memory.path m.cpu.pc⟩, none, some reply⟩ =
      .ok (.ok .next, .of (next reply) memory.root) := by
  refine Row.replay_eq_ok_iff.mpr ⟨?_, ?_, next reply, false, memory.root, .call hf rfl hp, ?_, rfl⟩
  · simp only [Row.fetchIsAuthentic, Option.all_some, SystemState.memoryRoot_of]
    exact HaltingGuest.wellFormedFor_memory.authenticates ha
  · simp only [Row.dataIsAuthentic, Option.all_none]
  · simp only [Row.rootAfter, SystemState.memoryRoot_of]

theorem replay_row (reply : HostReply) : (row reply).replay params =
    .ok (.ok .next, .of (answered reply) memory.root) :=
  replay_call rfl isWordAddr_start plan_start reply

theorem decodeSeal_receipt (reply : HostReply) :
    (receipt reply).decodeSeal = .ok (sealOf reply) :=
  SegmentSeal.decode_encode_pair (HaltingGuest.hasShortPaths_row rfl rfl) ⟨by simp, by simp⟩

/-- The receipt is accepted with any answer. -/
theorem verify_receipt (reply : HostReply) : (receipt reply).verify = .ok () :=
  SegmentReceipt.verify_eq_ok_iff.mpr ⟨_, decodeSeal_receipt reply,
    SegmentClaim.provenBy_pair (row reply) { state := .of (answered reply) memory.root }
      HaltingGuest.validate_params (replay_row reply) rfl rfl⟩

/-- The guest running on an input. -/
def live (input : Bytes) : Live := ⟨params, start, ⟨memory, { bytes := input }, #[]⟩, #[], 0⟩

/-- Whatever the host answers, the call leaves the memory as it is. -/
theorem memory_of_follow {replies : List HostReply} {outcome : StepOutcome} {q : Playback}
    (h : (Playback.mk start memory replies).follow params = (.ok outcome, q)) :
    q.memory = memory := by
  have hf : Machine.canFetch params start.cpu.pc = true := rfl
  rw [Playback.follow_of_plan_ok (p := ⟨start, memory, replies⟩) hf plan_start, Prod.mk.injEq] at h
  rw [← h.2]
  rfl

/-- What is hashed for the guest: what is hashed for the guest that halts, and its states. -/
def messages (reply : HostReply) : List Bytes :=
  ([start, answered reply].map fun m =>
    (SystemState.of m (Digest.evaluate (HaltingGuest.climbed.getLastD []))).preimage.bytes) ++
    HaltingGuest.messages

theorem mem_messages_of_state {m : Machine} {reply : HostReply} (h : m ∈ [start, answered reply]) :
    (SystemState.of m memory.root).preimage.bytes ∈ messages reply := by
  rw [HaltingGuest.root_eq]
  exact List.mem_append_left _ (List.mem_map.mpr ⟨m, h, rfl⟩)

theorem mem_messages_of_treeMessage {x : Bytes} {reply : HostReply} (h : memory.TreeMessage x) :
    x ∈ messages reply :=
  List.mem_append_right _ (HaltingGuest.mem_messages_of_treeMessage h)

/-- All that is hashed for the guest on an input is among the messages. -/
theorem mem_messages_of_hashed {reply : HostReply} {input : Bytes} {replies : List HostReply}
    {x : Bytes}
    (h : (receipt reply).claim.Hashed (sealOf reply) ((live input).playback replies) x) :
    x ∈ messages reply := by
  have hreplayed : (receipt reply).claim.replayed (sealOf reply).rows = [row reply] := rfl
  rcases h with rfl | (⟨r, hr, rfl⟩ | ⟨r, hr, result, state, hreplay, rfl⟩ | ⟨r, hr, hx⟩) |
    ⟨outcomes, q, hsteps, hlen, hx⟩
  · exact mem_messages_of_state List.mem_cons_self
  · simp only [sealOf, rows, List.mem_cons, List.not_mem_nil, or_false] at hr
    rcases hr with rfl | rfl
    · exact mem_messages_of_state List.mem_cons_self
    · exact mem_messages_of_state (List.mem_cons_of_mem _ List.mem_cons_self)
  · obtain rfl : r = row reply := List.mem_singleton.mp hr
    obtain ⟨-, rfl⟩ := Prod.mk.inj (Except.ok.inj ((replay_row reply).symm.trans hreplay))
    exact mem_messages_of_state (List.mem_cons_of_mem _ List.mem_cons_self)
  · rw [hreplayed, List.mem_singleton] at hr
    subst hr
    refine mem_messages_of_treeMessage
      (HaltingGuest.wellFormedFor_memory.treeMessage_of_mem_path isWordAddr_start ?_)
    simpa [Row.pathMessages, row] using hx
  · -- There is only one step, the call.
    have hmemory : q.memory = memory := by
      cases hsteps with
      | done => rfl
      | step hfollow hrest =>
        have hkeeps := memory_of_follow hfollow
        cases hrest with
        | done => exact hkeeps
        | step => simp [receipt] at hlen
    exact mem_messages_of_treeMessage (hmemory ▸ hx)

/-- The answer that an input of five bytes gives. -/
def fourBytes : HostReply := ⟨0x04030201, 4⟩

theorem collisionFree_messages : CollisionFree fun x => x ∈ messages fourBytes :=
  .of_nodup (by decide +kernel)

end AskingGuest

open AskingGuest in
/-- The guest that asks is accepted with the first four of five bytes as its answer. They are given
by inputs with at least four bytes, and the guest gets them when it runs on such an input. -/
theorem SegmentReceipt.answers_of_verify_asking :
    (receipt fourBytes).verify = .ok () ∧
    (sealOf fourBytes).calls = [(.read, fourBytes)] ∧
    (∀ left, (∃ i : Input, i.InRange ∧ i.unread.length = left ∧
      i.Answers (sealOf fourBytes).calls) ↔ 4 ≤ left) ∧
    ∃ t, (live [1, 2, 3, 4, 5]).Stretch .systemSplit 1 t ∧
      t.state.commitment = (receipt fourBytes).claim.endCommitment ∧
      t.world.replies = #[fourBytes] := by
  obtain ⟨-, hanswers, hruns⟩ :=
    answers_of_verify (verify_receipt fourBytes) (decodeSeal_receipt fourBytes)
  rw [calls_sealOf] at hanswers hruns
  obtain ⟨t, hstretch, hend, -, hreplies⟩ := hruns (live [1, 2, 3, 4, 5]) rfl
    HaltingGuest.wellFormedFor_memory rfl ⟨by decide, trivial⟩
    (collisionFree_messages.mono fun x hx => mem_messages_of_hashed hx)
  refine ⟨verify_receipt _, calls_sealOf _, fun left => ?_, t, hstretch, hend, hreplies⟩
  rw [calls_sealOf, hanswers, KeepsCount, HostCall.AnsweredBy]
  have hcount : fourBytes.a1.toNat = 4 := rfl
  have hvalue : fourBytes.a0.toNat = 0x04030201 := rfl
  rw [hcount, hvalue]
  constructor
  · rintro ⟨⟨hmin, -⟩, -⟩
    omega
  · intro hleft
    rw [Nat.min_eq_left hleft]
    exact ⟨⟨rfl, by decide⟩, trivial⟩

/-- An instruction that reads is accepted with a number of bytes that no input gives. -/
theorem SegmentReceipt.verify_unanswerable :
    (AskingGuest.receipt ⟨0, 1000⟩).verify = .ok () ∧
    (AskingGuest.receipt ⟨0, 1000⟩).decodeSeal = .ok (AskingGuest.sealOf ⟨0, 1000⟩) ∧
    (AskingGuest.sealOf ⟨0, 1000⟩).calls = [(.read, ⟨0, 1000⟩)] ∧
    ¬∃ i : Input, i.Answers (AskingGuest.sealOf ⟨0, 1000⟩).calls := by
  refine ⟨AskingGuest.verify_receipt _, AskingGuest.decodeSeal_receipt _,
    AskingGuest.calls_sealOf _, ?_⟩
  rw [AskingGuest.calls_sealOf]
  rintro ⟨i, hi, -⟩
  obtain ⟨⟨hcount, -⟩, -⟩ := i.answeredBy_answer .read
  rw [hi, show (1000 : UInt32).toNat = 1000 from rfl] at hcount
  omega

end ReplayVM
