import ReplayVM.Proofs.BusDiscipline
import ReplayVM.Proofs.HostReplies
import ReplayVM.Proofs.PlainRuns
import ReplayVM.Proofs.ProvingCompleteness
import ReplayVM.Proofs.RecordedRows
import ReplayVM.Proofs.SessionChains

/-!
# Delivery of the input

What a guest asks of the host is answered from one input, whose bytes are handed out once and in
order. The cut into segments neither drops a reply nor moves it to another segment: a segment keeps
the replies to the calls of its own instructions, and executing it again takes these replies one by
one and leaves none.

## Main definitions

* `HostCall.RepliedBy`, `Delivered`: the replies of an input to a call, and to calls in order.
* `HostCall.allCarried`: the bytes that replies carry.
* `Live.asked`, `Live.requests`: what instructions ask of the host, as their bus sees it.
* `Segment.Consumes`: a segment whose execution takes its replies one by one.
* `Session.DeliversInput`: a session that hands out its input.

## Main results

* `Input.delivered_serve`: an input hands out its bytes.
* `Live.world_after`: the replies in a plain run are those of the input.
* `Live.Stretch.exists_rows`: a stretch takes its replies when it is executed again.
* `Session.input_delivered`: every session delivers its input.
-/

namespace ReplayVM

/-! ### Words of few bytes -/

namespace Bytes

theorem le_zero (width : Nat) : le width 0 = List.replicate width 0 := by
  induction width with
  | zero => rfl
  | succ width ih => exact congrArg (0 :: ·) ih

/-- A number in more bytes than it has has zeros behind them. -/
theorem le_leValue_of_le {bs : Bytes} {width : Nat} (h : bs.length ≤ width) :
    le width (leValue bs) = bs ++ List.replicate (width - bs.length) 0 := by
  induction bs generalizing width with
  | nil => exact le_zero width
  | cons b bs ih =>
    cases width with
    | zero => simp at h
    | succ width =>
      have hb : b.toNat < 256 := b.toNat_lt
      have hquot : (b.toNat + 256 * leValue bs) / 256 = leValue bs := by omega
      have hrem : (b.toNat + 256 * leValue bs).toUInt8 = b := by
        apply UInt8.toNat_inj.mp
        simp only [Nat.toUInt8, UInt8.toNat_ofNat']
        omega
      rw [leValue, le, hquot, hrem, ih (Nat.le_of_succ_le_succ h), List.length_cons,
        Nat.succ_sub_succ]
      rfl

/-- A word of few bytes has zeros behind them. -/
theorem ofWord_toWord {bs : Bytes} (h : bs.length ≤ 4) :
    ofWord (toWord bs) = bs ++ List.replicate (4 - bs.length) 0 := by
  have hlt : leValue bs < 4294967296 := by
    refine Nat.lt_of_lt_of_le (leValue_lt bs) ?_
    rw [Nat.one_shiftLeft]
    exact Nat.pow_le_pow_right (show 0 < 2 by omega) (show 8 * bs.length ≤ 32 by omega)
  rw [ofWord, toWord, UInt32.toNat_ofNat', Nat.mod_eq_of_lt hlt, le_leValue_of_le h]

end Bytes

/-! ### Replies to calls -/

namespace HostCall

/-- The reply of an input to a call, when so many of its bytes are consumed. Reading gives the next
four bytes, least significant byte first, or as many as there are, with zeros behind them. -/
def RepliedBy (input : Bytes) (consumed : Nat) : HostCall → HostReply → Prop
  | .read, a => a.a1.toNat = min 4 (input.length - consumed) ∧
      Bytes.ofWord a.a0 = (input.drop consumed).take 4 ++ List.replicate (4 - a.a1.toNat) 0
  | .inputLen, a => a.a0.toNat = input.length - consumed ∧ a.a1 = 0

/-- The bytes of the input that a reply carries. -/
def carried : HostCall → HostReply → Bytes
  | .read, a => (Bytes.ofWord a.a0).take a.a1.toNat
  | .inputLen, _ => []

/-- The bytes that the replies to calls carry, in order. -/
def allCarried (requests : List HostCall) (replies : List HostReply) : Bytes :=
  (List.zipWith carried requests replies).flatten

end HostCall

/-- Replies of an input to calls in order, when so many of its bytes are consumed in front of
them. -/
def Delivered (input : Bytes) : (consumed : Nat) → List HostCall → List HostReply → Prop
  | _, [], [] => True
  | consumed, request :: requests, reply :: replies =>
    request.RepliedBy input consumed reply ∧
      Delivered input (consumed + (request.carried reply).length) requests replies
  | _, _, _ => False

namespace HostCall

variable {input : Bytes} {consumed : Nat} {request : HostCall} {reply : HostReply}

/-- A reply carries the next bytes of the input. -/
theorem RepliedBy.carried_eq (h : request.RepliedBy input consumed reply) :
    request.carried reply = (input.drop consumed).take (request.carried reply).length := by
  cases request with
  | inputLen => rfl
  | read =>
    obtain ⟨hcount, hword⟩ := h
    have hlen : ((input.drop consumed).take 4).length = reply.a1.toNat := by
      rw [List.length_take, List.length_drop, hcount]
    have hcarried : carried .read reply = (input.drop consumed).take 4 := by
      rw [carried, hword, List.take_left' hlen]
    rw [hcarried, hlen]
    exact (List.take_eq_take_iff.mpr (by rw [List.length_drop]; omega))

end HostCall

namespace Delivered

variable {input : Bytes} {consumed : Nat} {requests : List HostCall} {replies : List HostReply}

/-- What is delivered are bytes of the input, from where it was consumed before. -/
theorem allCarried_prefix (h : Delivered input consumed requests replies) :
    HostCall.allCarried requests replies <+: input.drop consumed := by
  induction requests generalizing consumed replies with
  | nil => exact List.nil_prefix
  | cons request requests ih => cases replies with
    | nil => exact List.nil_prefix
    | cons reply replies =>
      obtain ⟨hfirst, hrest⟩ := h
      rw [← List.take_append_drop (request.carried reply).length (input.drop consumed),
        ← hfirst.carried_eq, List.drop_drop]
      exact (List.prefix_append_right_inj _).mpr (ih hrest)

end Delivered

/-! ### Inputs -/

namespace Input

/-- The replies of an input to calls in order, and the input behind them. -/
def serve : Input → List HostCall → List HostReply × Input
  | i, [] => ([], i)
  | i, request :: requests =>
    let (reply, i) := i.answer request
    let (replies, i) := i.serve requests
    (reply :: replies, i)

theorem serve_append (i : Input) (first second : List HostCall) :
    i.serve (first ++ second) =
      ((i.serve first).1 ++ ((i.serve first).2.serve second).1,
        ((i.serve first).2.serve second).2) := by
  induction first generalizing i with
  | nil => rfl
  | cons request first ih =>
    simp only [List.cons_append, serve, ih]

theorem length_serve (i : Input) (requests : List HostCall) :
    (i.serve requests).1.length = requests.length := by
  induction requests generalizing i with
  | nil => rfl
  | cons request requests ih => exact congrArg (· + 1) (ih _)

variable {i : Input}

/-- An input gives the reply that belongs to its position, which moves on by what the reply
carries. -/
theorem repliedBy_answer (hlen : i.bytes.length < UInt32.size) (request : HostCall) :
    request.RepliedBy i.bytes i.pos (i.answer request).1 ∧
      (i.answer request).2.pos = i.pos + (request.carried (i.answer request).1).length := by
  cases request with
  | inputLen =>
    refine ⟨⟨?_, rfl⟩, rfl⟩
    change i.unread.length.toUInt32.toNat = _
    rw [unread, List.length_drop]
    exact UInt32.toNat_ofNat_of_lt' (Nat.lt_of_le_of_lt (Nat.sub_le _ _) hlen)
  | read =>
    have hchunk : (i.unread.take 4).length = min 4 (i.bytes.length - i.pos) := by
      rw [unread, List.length_take, List.length_drop]
    have hcount : (i.answer .read).1.a1.toNat = (i.unread.take 4).length := by
      refine UInt32.toNat_ofNat_of_lt' (Nat.lt_of_le_of_lt (List.length_take_le 4 _) ?_)
      decide
    have hword : Bytes.ofWord (i.answer .read).1.a0 =
        i.unread.take 4 ++ List.replicate (4 - (i.answer .read).1.a1.toNat) 0 := by
      rw [hcount]
      exact Bytes.ofWord_toWord (List.length_take_le 4 _)
    have hcarried : HostCall.carried .read (i.answer .read).1 = i.unread.take 4 := by
      rw [HostCall.carried, hword, List.take_left' hcount.symm]
    exact ⟨⟨hcount.trans hchunk, hword⟩, by rw [hcarried]; rfl⟩

/-- Serving calls leaves the bytes of the input. -/
theorem bytes_serve (i : Input) (requests : List HostCall) :
    (i.serve requests).2.bytes = i.bytes := by
  induction requests generalizing i with
  | nil => rfl
  | cons request requests ih => exact (ih _).trans (i.answer_move request).1

/-- **An input hands out its bytes.** Asked for calls in order, an input gives the replies that
belong there from its position on, and the position moves on by the bytes that the replies carry. -/
theorem delivered_serve (hlen : i.bytes.length < UInt32.size) (requests : List HostCall) :
    Delivered i.bytes i.pos requests (i.serve requests).1 ∧ (i.serve requests).2.pos =
      i.pos + (HostCall.allCarried requests (i.serve requests).1).length := by
  induction requests generalizing i with
  | nil => exact ⟨trivial, rfl⟩
  | cons request requests ih =>
    obtain ⟨hreply, hmoved⟩ := repliedBy_answer hlen request
    have hbytes := (i.answer_move request).1
    obtain ⟨hrest, hpos⟩ := ih (i := (i.answer request).2) (hbytes.symm ▸ hlen)
    rw [hbytes, hmoved] at hrest
    refine ⟨⟨hreply, hrest⟩, hpos.trans ?_⟩
    simp only [hmoved, serve, HostCall.allCarried, List.zipWith_cons_cons, List.flatten_cons,
      List.length_append, Nat.add_assoc]

end Input

/-! ### Calls of running machines -/

/-- What a use of the bus asks of the host, if it is a call. -/
def Access.request? : Access → Option HostCall
  | .call request => some request
  | _ => none

namespace Live

variable {s t : Live} {outcome : StepOutcome} {exit : ExitCode} {count : Nat}

/-- What the next instruction asks of the host, as it stands in the log of its bus. -/
def asked (s : Live) : List HostCall :=
  (s.machine.accesses World.bus s.params s.world).filterMap Access.request?

/-- What a number of instructions ask of the host, in order. -/
def requests (s : Live) : (count : Nat) → List HostCall
  | 0 => []
  | count + 1 => s.asked ++ s.step.2.requests count

/-- An instruction asks at most one thing, which its plan names. -/
theorem asked_eq (s : Live) : s.asked = s.request.toList := by
  cases hf : Machine.canFetch s.params s.machine.cpu.pc with
  | false =>
    have hrequest : s.request = none := if_neg (Bool.eq_false_iff.mp hf)
    rw [asked, Machine.accesses_of_not_canFetch hf, hrequest]
    rfl
  | true =>
    have hrequest : s.request =
        s.machine.request s.params (World.bus.fetch s.world s.machine.cpu.pc).1 := if_pos hf
    cases hp : s.machine.plan s.params (World.bus.fetch s.world s.machine.cpu.pc).1 with
    | error reason =>
      rw [Machine.request, hp] at hrequest
      rw [asked, Machine.accesses_of_plan_error hf hp, hrequest]
      rfl
    | ok effect =>
      rw [Machine.request, hp] at hrequest
      rw [asked, Machine.accesses_of_plan_ok hf hp, hrequest]
      cases effect <;> rfl

/-- What is remembered does not matter to what is asked. -/
theorem asked_remembering (before : List HostReply) (s : Live) :
    (s.remembering before).asked = s.asked := by
  rw [asked_eq, asked_eq]
  rfl

theorem requests_remembering (before : List HostReply) (s : Live) (count : Nat) :
    (s.remembering before).requests count = s.requests count := by
  induction count generalizing s with
  | zero => rfl
  | succ count ih => rw [requests, requests, asked_remembering, step_remembering, ih]

theorem requests_succ (h : s.step = (.ok outcome, t)) (count : Nat) :
    s.requests (count + 1) = s.asked ++ t.requests count := by
  rw [requests, h]

theorem requests_add (s : Live) (m n : Nat) :
    s.requests (m + n) = s.requests m ++ (s.after m).requests n := by
  induction m generalizing s with
  | zero => rw [Nat.zero_add, requests, after, List.nil_append]
  | succ m ih => rw [Nat.succ_add, requests, requests, after, ih, List.append_assoc]

/-- A fault asks nothing. -/
theorem asked_of_error {reason : FaultReason} (h : s.step = (.error reason, t)) :
    s.asked = [] := by
  obtain ⟨hresult, -⟩ := step_of_error h
  obtain haccesses | haccesses := Machine.accesses_of_error hresult
  · rw [asked, haccesses, List.filterMap_nil]
  · rw [asked, haccesses]
    rfl

/-- A step records the replies of the input to what it asks, and leaves the input behind them. -/
theorem world_step (s : Live) :
    s.step.2.world.input = (s.world.input.serve s.asked).2 ∧
      s.step.2.world.replies.toList =
        s.world.replies.toList ++ (s.world.input.serve s.asked).1 := by
  rcases hstep : s.step with ⟨reason | outcome, t⟩
  · obtain ⟨-, rfl⟩ := step_of_error hstep
    rw [asked_of_error hstep]
    exact ⟨rfl, (List.append_nil _).symm⟩
  · obtain ⟨-, rfl⟩ := step_of_ok hstep
    obtain ⟨-, hinput, hreplies⟩ := s.follow_playback []
    rw [asked_eq]
    refine ⟨hinput.trans ?_, (congrArg Array.toList hreplies).trans ?_⟩
    · cases s.request <;> rfl
    · rw [Array.toList_append]
      cases s.request <;> rfl

/-- **Replies in a plain run.** Behind any number of instructions a machine has recorded what its
input replies to their calls, and has left of the input what is behind them. -/
theorem world_after (s : Live) (count : Nat) :
    (s.after count).world.input = (s.world.input.serve (s.requests count)).2 ∧
      (s.after count).world.replies.toList =
        s.world.replies.toList ++ (s.world.input.serve (s.requests count)).1 := by
  induction count generalizing s with
  | zero => exact ⟨rfl, (List.append_nil _).symm⟩
  | succ count ih =>
    obtain ⟨hinput, hreplies⟩ := s.world_step
    obtain ⟨hinput', hreplies'⟩ := ih s.step.2
    rw [hinput] at hinput' hreplies'
    rw [after, requests, Input.serve_append]
    exact ⟨hinput', by rw [hreplies', hreplies, List.append_assoc]⟩

end Live

/-! ### Executing again -/

/-- An effect behind a recorder takes the replies to its call and notes them. -/
theorem Effect.run_recorder (effect : Effect) (w : World) (fetch : Option FetchWitness) :
    ∃ data, ∀ rest, effect.run Recorder.bus
        { memory := w.memory
          replies := (w.input.serve effect.asks.toList).1 ++ rest
          fetch := fetch } =
      ⟨(effect.run World.bus w).result, (effect.run World.bus w).machine,
        { memory := (effect.run World.bus w).bus.memory
          replies := rest
          fetch := fetch
          data := data
          host := (w.input.serve effect.asks.toList).1.head? }⟩ := by
  cases effect with
  | finish | call => exact ⟨none, fun rest => rfl⟩
  | load addr next =>
    exact ⟨some ⟨addr, w.memory.loadWord addr, w.memory.loadWord addr, w.memory.path addr⟩,
      fun rest => rfl⟩
  | store addr merge next =>
    refine ⟨some ⟨addr, w.memory.loadWord addr, merge (w.memory.loadWord addr),
      w.memory.path addr⟩, fun rest => ?_⟩
    simp [run, asks, Recorder.bus, Recorder.loadWord, Recorder.storeWord, World.bus, Input.serve]

namespace Live

variable {s t : Live} {outcome : StepOutcome} {exit : ExitCode} {count : Nat}

/-- An instruction that is executed again takes the replies to its calls, and its row has these
calls. -/
theorem exists_advance (h : s.step = (.ok outcome, t)) : ∃ row : Row,
    (row.call s.params).toList = s.asked.zip (s.world.input.serve s.asked).1 ∧
    ∀ rest index, (s.playback ((s.world.input.serve s.asked).1 ++ rest)).advance s.params index =
      .ok (outcome, row, t.playback rest) := by
  obtain ⟨hresult, rfl⟩ := step_of_ok h
  have hf : Machine.canFetch s.params s.machine.cpu.pc = true := by
    by_contra hf
    rw [Machine.step_of_not_canFetch (Bool.eq_false_iff.mpr hf)] at hresult
    simp at hresult
  cases hp : s.machine.plan s.params (s.world.memory.loadWord s.machine.cpu.pc) with
  | error reason =>
    have hstep : s.machine.step World.bus s.params s.world = ⟨.error reason, s.machine, s.world⟩ :=
      Machine.step_of_plan_error hf hp
    rw [hstep] at hresult
    simp at hresult
  | ok effect =>
    have hstep : s.machine.step World.bus s.params s.world = effect.run World.bus s.world :=
      Machine.step_of_plan_ok hf hp
    have hrequest : s.request = effect.asks := by
      have : s.request = s.machine.request s.params (s.world.memory.loadWord s.machine.cpu.pc) :=
        if_pos hf
      rw [this, Machine.request, hp]
    have hrecord (replies : List HostReply) : (s.playback replies).step s.params =
        effect.run Recorder.bus
          (Recorder.fetchWord { memory := s.world.memory, replies } s.machine.cpu.pc).2 :=
      Machine.step_of_plan_ok hf hp
    obtain ⟨data, hrun⟩ := effect.run_recorder s.world
      (some ⟨s.machine.cpu.pc, s.world.memory.loadWord s.machine.cpu.pc,
        s.world.memory.path s.machine.cpu.pc⟩)
    rw [asked_eq, hrequest, hstep]
    rw [hstep] at hresult
    refine ⟨⟨s.state, some ⟨s.machine.cpu.pc, s.world.memory.loadWord s.machine.cpu.pc,
      s.world.memory.path s.machine.cpu.pc⟩, data,
      (s.world.input.serve effect.asks.toList).1.head?⟩, ?_, fun rest index => ?_⟩
    · have hrow : Row.request s.params ⟨s.state, some ⟨s.machine.cpu.pc,
          s.world.memory.loadWord s.machine.cpu.pc, s.world.memory.path s.machine.cpu.pc⟩, data,
          (s.world.input.serve effect.asks.toList).1.head?⟩ = effect.asks := by
        rw [Row.request, state, SystemState.machine_of, Option.bind_some, Machine.request, hp]
      rw [Row.call, hrow]
      cases effect <;> rfl
    · refine Playback.advance_eq_ok_iff.mpr ?_
      rw [hrecord]
      exact (hrun rest).symm ▸ ⟨hresult, rfl, rfl, rfl⟩

/-- A stretch that is executed again takes the replies to its calls, and its rows have these
calls. -/
theorem Stretch.exists_rows (h : s.Stretch exit count t) : ∃ rows : List Row,
    rows.filterMap (Row.call s.params) =
      (s.requests count).zip (s.world.input.serve (s.requests count)).1 ∧
    ∀ rest index, (s.playback ((s.world.input.serve (s.requests count)).1 ++ rest)).rows s.params
      exit count index = .ok (rows, t.playback rest) := by
  have hcons {params : Params} (row : Row) (rows : List Row) :
      (row :: rows).filterMap (Row.call params) =
        (row.call params).toList ++ rows.filterMap (Row.call params) := by
    cases hcall : row.call params <;> simp [hcall]
  induction h with
  | split s | limit s => exact ⟨[], rfl, fun rest index => rfl⟩
  | fault h =>
    obtain ⟨-, rfl⟩ := step_of_error h
    exact ⟨[], rfl, fun rest index => rfl⟩
  | @last s t outcome exit h hneeds hexit =>
    obtain ⟨row, hcall, hadvance⟩ := exists_advance h
    rw [requests_succ h, requests, List.append_nil]
    refine ⟨[row], by rw [hcons, hcall, List.filterMap_nil, List.append_nil], fun rest index =>
      Playback.rows_succ_eq_ok_iff.mpr ⟨outcome, row, _, [], hadvance rest index, ?_, rfl, rfl⟩⟩
    simp [Playback.checkOutcome, hexit]
  | @next s t u exit count h hrest ih =>
    obtain ⟨row, hcall, hadvance⟩ := exists_advance h
    obtain ⟨rows, hcalls, hrows⟩ := ih
    have hinput : t.world.input = (s.world.input.serve s.asked).2 := by
      have := s.world_step.1
      rwa [h] at this
    have hparams : t.params = s.params := by rw [(step_of_ok h).2]
    rw [hinput, hparams] at hcalls hrows
    rw [requests_succ h, Input.serve_append]
    refine ⟨row :: rows, ?_, fun rest index => Playback.rows_succ_eq_ok_iff.mpr
      ⟨.next, row, _, rows, ?_, hrest.checkOutcome_next index, hrows rest (index + 1), rfl⟩⟩
    · rw [hcons, hcall, hcalls, List.zip_append (Input.length_serve _ _).symm]
    · rw [List.append_assoc]
      exact hadvance _ index

/-- The row of an end state in which the next step gives the fault of the exit, if it has one. -/
theorem exists_endRow (hfault : ∀ reason, exit.finalFault = some reason →
    s.step = (.error reason, s)) :
    ∃ last, (s.playback []).finalRow s.params exit = .ok last ∧ last.state = s.state := by
  unfold Playback.finalRow
  cases hexit : exit.finalFault with
  | none => exact ⟨_, rfl, rfl⟩
  | some reason =>
    obtain ⟨hresult, -⟩ := step_of_error (hfault reason hexit)
    obtain ⟨new, -, -, hnone, hrecord⟩ := Playback.step_of_world s.params s.machine s.world
    obtain rfl := hnone reason hresult
    have herror : ((s.playback []).step s.params).result = .error reason :=
      (hrecord []).1.trans hresult
    simp only [herror, if_true]
    exact ⟨_, rfl, rfl⟩

end Live

/-- A segment whose witness has some calls in its rows, with the replies that the segment carries:
executing the segment again takes these replies one by one, and no reply behind them. -/
structure Segment.Consumes (x : Segment) (requests : List HostCall) (rows : List Row) : Prop where
  witness_eq : x.witness = .ok rows
  calls_eq : (x.sealOf rows).calls = requests.zip x.trace.hostReplies
  rest_eq : ∀ rest, ∃ p : Playback, p.replies = rest ∧
    { x.playback with replies := x.trace.hostReplies ++ rest }.rows x.params x.exitCode
      x.instructionCount.toNat 0 = .ok (rows.dropLast, p)

namespace Live

variable {limits : RunLimits} {index : UInt32} {s : Live} {e : RunEnd}
  {before after : List Segment} {segment : Segment}

/-- The replies that a segment carries are those to the calls of its instructions. -/
theorem hostReplies_segment (limits : RunLimits) (index : UInt32) (s : Live) :
    (s.segment index (s.segmentEnd limits)).trace.hostReplies =
      (s.world.input.serve (s.fresh.requests (s.segmentEnd limits).count)).1 := by
  change (s.segmentEnd limits).live.world.replies.toList = _
  rw [(stretch_segmentEnd limits s).2.after_eq, (world_after _ _).2]
  rfl

/-- **Segments take their replies.** A segment of a run is executed again with the replies that it
carries, and takes them all. -/
theorem exists_consumes (hlimit : limits.segmentLimit < UInt32.size) (index : UInt32) (s : Live) :
    ∃ rows, (s.segment index (s.segmentEnd limits)).Consumes
      (s.fresh.requests (s.segmentEnd limits).count) rows := by
  have hcount := instructionCount_segment hlimit index s
  have hreplies := hostReplies_segment limits index s
  have hpos : (s.segmentEnd limits).exit.needsInstruction = true →
      0 < (s.segmentEnd limits).count := count_segmentEnd_pos
  obtain ⟨-, hstretch⟩ := stretch_segmentEnd limits s
  obtain ⟨rows, hcalls, hrows⟩ := hstretch.exists_rows
  obtain ⟨last, hfinal, hstate⟩ := exists_endRow fun _ => hstretch.step_of_finalFault
  rw [hstretch.params_eq] at hfinal
  generalize s.segmentEnd limits = e at *
  have hplay (rest : List HostReply) : { (s.segment index e).playback with
      replies := (s.segment index e).trace.hostReplies ++ rest }.rows s.params e.exit
        (s.segment index e).instructionCount.toNat 0 = .ok (rows, e.live.playback rest) := by
    rw [hreplies, hcount]
    exact hrows rest 0
  refine ⟨rows ++ [last], ?_, ?_, fun rest => ⟨e.live.playback rest, rfl, ?_⟩⟩
  · have hneeds : e.exit.needsInstruction = true →
        (s.segment index e).instructionCount ≠ 0 := by
      intro h hzero
      have := hpos h
      rw [← hcount, hzero] at this
      exact Nat.lt_irrefl 0 this
    have hplayed := hplay []
    rw [List.append_nil] at hplayed
    exact Segment.witness_eq hneeds hplayed rfl hfinal (congrArg SystemState.commitment hstate)
      (congrArg SystemState.outputDigest hstate)
  · change ((rows ++ [last]).dropLast).filterMap (Row.call s.params) = _
    rw [List.dropLast_concat, hreplies]
    exact hcalls
  · rw [List.dropLast_concat]
    exact hplay rest

/-! ### Runs -/

/-- A segment of a run starts, up to the replies, where the plain run stands behind the segments
before it. -/
theorem Runs.exists_start_of_append (h : Runs limits index s e)
    (hlimit : limits.segmentLimit < UInt32.size) (he : e.segments = before ++ segment :: after) :
    ∃ (index' : UInt32) (t : Live) (earlier : List HostReply),
      segment = t.segment index' (t.segmentEnd limits) ∧
      s.fresh.after (Segment.totalCount before) = t.fresh.remembering earlier := by
  have hsegment : e.segments[before.length]? = some segment := by simp [he]
  have hstart := h.exists_start hlimit hsegment
  rwa [he, List.take_left] at hstart

/-- A segment of a run carries what the input, as the segments before it have left it, replies to
the calls of its instructions, and takes these replies when it is executed again. -/
theorem Runs.hostReplies_eq (h : Runs limits index s e)
    (hlimit : limits.segmentLimit < UInt32.size) (he : e.segments = before ++ segment :: after) :
    let u := s.fresh.after (Segment.totalCount before)
    let requests := u.requests segment.instructionCount.toNat
    segment.trace.hostReplies = (u.world.input.serve requests).1 ∧
      ∃ rows, segment.Consumes requests rows := by
  obtain ⟨index', t, earlier, rfl, hstart⟩ := h.exists_start_of_append hlimit he
  obtain ⟨rows, hrows⟩ := exists_consumes hlimit index' t
  simp only [hstart, requests_remembering, instructionCount_segment hlimit]
  exact ⟨hostReplies_segment limits index' t, rows, hrows⟩

/-- The first segments of a run carry what the input replies to the calls of their instructions. -/
theorem Runs.allReplies_eq (h : Runs limits index s e)
    (hlimit : limits.segmentLimit < UInt32.size) (he : e.segments = before ++ after) :
    Segment.allReplies before =
      (s.world.input.serve (s.fresh.requests (Segment.totalCount before))).1 := by
  induction before using List.reverseRecOn generalizing after with
  | nil => rfl
  | append_singleton before segment ih =>
    rw [List.append_assoc, List.singleton_append] at he
    have hinput := (s.fresh.world_after (Segment.totalCount before)).1
    have hcount : Segment.totalCount (before ++ [segment]) =
        Segment.totalCount before + segment.instructionCount.toNat := by
      simp [Segment.totalCount]
    have hreplies : Segment.allReplies (before ++ [segment]) =
        Segment.allReplies before ++ segment.trace.hostReplies := by
      simp [Segment.allReplies]
    rw [hreplies, ih he, (h.hostReplies_eq hlimit he).1, hinput, hcount, requests_add,
      Input.serve_append]
    rfl

end Live

/-! ### Sessions -/

/-- The bytes of the input that the replies in the first segments of a run carry. -/
def Live.consumed (start : Live) (segments : List Segment) : Bytes :=
  HostCall.allCarried (start.requests (Segment.totalCount segments)) (Segment.allReplies segments)

/-- A session from a starting machine that hands out its input: the replies in its segments, put
together, are those to all calls of the plain run, and carry the bytes of the input from the first
one on. Every segment starts with the position behind what was consumed before it, has the replies
to the calls of its own instructions, and takes them when it is executed again. -/
structure Session.DeliversInput (x : Session) (start : Live) (input : Bytes) : Prop where
  delivered : Delivered input 0 (start.requests (Segment.totalCount x.segments))
    (Segment.allReplies x.segments)
  consumed_prefix : start.consumed x.segments <+: input
  of_segment : ∀ before segment after, x.segments = before ++ segment :: after →
    let requests := (start.after (Segment.totalCount before)).requests
      segment.instructionCount.toNat
    (start.after (Segment.totalCount before)).world.input =
        { bytes := input, pos := (start.consumed before).length } ∧
      Delivered input (start.consumed before).length requests segment.trace.hostReplies ∧
      ∃ rows, segment.Consumes requests rows

/-- Behind the first segments of a run the machine has its whole input, and a position in it that is
behind the bytes that their replies carry. -/
theorem Live.Runs.input_after {limits : RunLimits} {index : UInt32} {s : Live} {e : Live.RunEnd}
    {input : Bytes} {before after : List Segment} (h : Live.Runs limits index s e)
    (hs : s.fresh = s) (hinput : s.world.input = { bytes := input })
    (hlimit : limits.segmentLimit < UInt32.size) (hlen : input.length < UInt32.size)
    (he : e.segments = before ++ after) :
    Delivered input 0 (s.requests (Segment.totalCount before)) (Segment.allReplies before) ∧
      (s.after (Segment.totalCount before)).world.input =
        { bytes := input, pos := (s.consumed before).length } := by
  have hreplies := h.allReplies_eq hlimit he
  have hbytes : s.world.input.bytes = input := congrArg Input.bytes hinput
  have hpos : s.world.input.pos = 0 := congrArg Input.pos hinput
  rw [hs] at hreplies
  obtain ⟨hdelivered, hmoved⟩ := Input.delivered_serve (i := s.world.input) (hbytes.symm ▸ hlen)
    (s.requests (Segment.totalCount before))
  rw [← hreplies, hpos] at hdelivered hmoved
  rw [hbytes] at hdelivered
  rw [← (s.world_after _).1, Nat.zero_add] at hmoved
  have hkept := s.world.input.bytes_serve (s.requests (Segment.totalCount before))
  rw [← (s.world_after _).1, hbytes] at hkept
  exact ⟨hdelivered, congr (congrArg Input.mk hkept) hmoved⟩

/-- The session of a run delivers the input of the machine at its start. -/
theorem Session.deliversInput_ofRun {limits : RunLimits} {index : UInt32} {s : Live}
    {e : Live.RunEnd} {input : Bytes} (h : Live.Runs limits index s e) (hs : s.fresh = s)
    (hinput : s.world.input = { bytes := input }) (hlimit : limits.segmentLimit < UInt32.size)
    (hlen : input.length < UInt32.size) : (ofRun e).DeliversInput s input := by
  obtain ⟨hall, -⟩ := h.input_after hs hinput hlimit hlen (List.append_nil e.segments).symm
  refine ⟨hall, hall.allCarried_prefix, fun before segment after he => ?_⟩
  obtain ⟨-, hposition⟩ := h.input_after hs hinput hlimit hlen he
  obtain ⟨hown, hconsumes⟩ := h.hostReplies_eq hlimit he
  rw [hs] at hown hconsumes
  have hdelivered := (Input.delivered_serve (i := (s.after (Segment.totalCount before)).world.input)
    (by rwa [hposition]) ((s.after (Segment.totalCount before)).requests
      segment.instructionCount.toNat)).1
  rw [← hown, hposition] at hdelivered
  exact ⟨hposition, hdelivered, hconsumes⟩

/-- Accepted inputs have lengths that are words. -/
theorem ExecutionOptions.size_lt_of_limits {o : ExecutionOptions} {params : Params} {size : Nat}
    {limits : RunLimits} (h : o.limits params size = .ok limits) : size < UInt32.size := by
  unfold ExecutionOptions.limits at h
  split_ifs at h with _ hsize
  exact Nat.lt_of_not_le fun hle => hsize (.inr hle)

/-- **The input is delivered once and in order.** Every session of a program, and every session that
continues a paused machine, hands out its input. -/
theorem Session.input_delivered (input : Bytes) (options : ExecutionOptions) :
    (∀ (p : Program) (x : Session), p.execute input options = .ok x →
      x.DeliversInput (p.live input) input) ∧
    ∀ (c : Continuation) (x : Session), c.resume input options = .ok x →
      x.DeliversInput (c.live input) input := by
  constructor
  · intro p x h
    obtain ⟨limits, hlimits, rfl⟩ := Program.execute_eq_ok_iff.mp h
    exact deliversInput_ofRun (Live.runs_run limits 0 _) rfl rfl
      (ExecutionOptions.limits_lt hlimits).1 (ExecutionOptions.size_lt_of_limits hlimits)
  · intro c x h
    obtain ⟨limits, hlimits, rfl⟩ := Continuation.resume_eq_ok_iff.mp h
    exact deliversInput_ofRun (Live.runs_run limits c.nextSegmentIndex _) rfl rfl
      (ExecutionOptions.limits_lt hlimits).1 (ExecutionOptions.size_lt_of_limits hlimits)

namespace ReadingGuest

/-- A program that reads twice and halts with what it has read last. -/
def program : Program :=
  .make ((((((Memory.empty {}).storeWord 0x1000 0x00300893).storeWord 0x1004 0x73).storeWord 0x1008
    0x73).storeWord 0x100c 0x00000893).storeWord 0x1010 0x73) minMemory {} ⟨"", [], 0⟩

/-- An input with a byte more than the program reads. -/
def input : Bytes := [1, 2, 3, 4, 5, 6, 7, 8, 9]

/-- Options under which there is a boundary between the two reads. -/
def options : ExecutionOptions := { segmentLimit := 2, maxCycles := 100 }

/-- The limits that the options set. -/
def limits : RunLimits := ⟨2, 100, 1024, Nat.succ_pos 1⟩

/-- The session of the program. -/
def session (input : Bytes) : Session := .ofRun ((program.live input).run limits 0)

theorem execute_input : program.execute input options = .ok (session input) := rfl

/-- Each of the two reads has its reply in the segment of its instruction. -/
theorem hostReplies_session : (session input).segments.map (fun x => x.trace.hostReplies) =
    [[⟨0x04030201, 4⟩], [⟨0x08070605, 4⟩], []] := by
  decide +kernel

end ReadingGuest

open ReadingGuest in
/-- The program that reads gets the first eight bytes of its input, in two segments. -/
theorem Session.input_delivered_reading : program.execute input options = .ok (session input) ∧
    (session input).DeliversInput (program.live input) input ∧
    (session input).segments.map (fun x => x.trace.hostReplies) =
      [[⟨0x04030201, 4⟩], [⟨0x08070605, 4⟩], []] :=
  ⟨execute_input, (input_delivered input options).1 program _ execute_input, hostReplies_session⟩

end ReplayVM
