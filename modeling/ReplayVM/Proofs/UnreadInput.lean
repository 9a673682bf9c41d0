import ReplayVM.Proofs.InputDelivery

/-!
# Input that is not read

The only way from the input to a machine are the replies to its calls. A machine that never asks for
the length of the input, and whose reads all lie inside it, cannot tell its input from another one
that starts with the bytes it has read: not by what it does, nor by where its segments are cut, nor
by what its session leaves.

## Main definitions

* `Live.withInput`, `Live.Alike`: machines that differ in nothing but the input they have left.
* `Live.Spares`: a machine that read whole words and has not touched the end of its input.
* `Session.ReadsWords`: a session whose machine reads whole words and asks nothing else.

## Main results

* `Live.Alike.exists_step`: alike machines make the same step.
* `Live.runSegment_alike`, `Live.Runs.alike`: so are their segments and runs.
* `Program.session_unread`: a program that reads whole words has one session on all inputs that
  start with what it read.
-/

namespace ReplayVM

/-- Asking does not give an input more bytes. -/
theorem Input.length_unread_serve_le (i : Input) (requests : List HostCall) :
    (i.serve requests).2.unread.length ≤ i.unread.length := by
  induction requests generalizing i with
  | nil => exact Nat.le_refl _
  | cons request requests ih =>
    refine Nat.le_trans (ih _) ?_
    cases request with
    | inputLen => exact Nat.le_refl _
    | read =>
      change i.read.2.unread.length ≤ _
      rw [i.unread_read, List.length_drop]
      exact Nat.sub_le _ _

namespace Live

variable {u v : Bytes} {s t : Live}

/-! ### Machines with other inputs -/

/-- The machine with another input. -/
def withInput (s : Live) (i : Input) : Live := { s with world := { s.world with input := i } }

/-- Two machines that differ in nothing but their inputs, of which they have the same bytes left in
front of the ends. -/
def Alike (u v : Bytes) (s t : Live) : Prop :=
  ∃ shared i, s.world.input.unread = shared ++ u ∧ i.unread = shared ++ v ∧ t = s.withInput i

/-- A machine that got four bytes for every call since its segment started, and has so many bytes
left as an end of its input has. -/
structure Spares (u : Bytes) (s : Live) : Prop where
  words : ∀ reply ∈ s.world.replies.toList, reply.a1 = 4
  left : u.length ≤ s.world.input.unread.length

/-- What a machine spares after some instructions it spared before them. -/
theorem Spares.of_after {count : Nat} (h : (s.after count).Spares u) : s.Spares u := by
  obtain ⟨hinput, hreplies⟩ := s.world_after count
  refine ⟨fun reply hreply => h.words reply ?_, ?_⟩
  · rw [hreplies]
    exact List.mem_append_left _ hreply
  · have hleft := h.left
    rw [hinput] at hleft
    exact Nat.le_trans hleft (Input.length_unread_serve_le _ _)

theorem Spares.of_runSegment {limits : RunLimits} {room : Nat} {pages : List UInt32} {count : Nat}
    (h : (s.runSegment limits room pages count).live.Spares u) : s.Spares u := by
  obtain ⟨n, -, -, hstretch⟩ := stretch_runSegment limits room pages count s
  rw [hstretch.after_eq] at h
  exact h.of_after

/-- A machine with another input makes the same step, if that input gives the same replies. -/
theorem step_withInput {i : Input} (h : i.given s.request = s.world.input.given s.request) :
    (s.withInput i).step = (s.step.1, s.step.2.withInput (i.behind s.request)) := by
  obtain ⟨hfollow, -, hreplies⟩ := s.follow_playback []
  obtain ⟨hfollow', hinput', hreplies'⟩ := (s.withInput i).follow_playback []
  have hsame : (s.withInput i).world.input.given (s.withInput i).request =
      s.world.input.given s.request := h
  rw [hsame] at hfollow' hreplies'
  -- Both machines follow one playback, so their steps differ in nothing but the input.
  have hplayback := hfollow'.symm.trans hfollow
  simp only [Prod.mk.injEq, Playback.mk.injEq, and_true] at hplayback
  obtain ⟨hresult, hmachine, hmemory⟩ := hplayback
  have hworld : ((s.withInput i).machine.step World.bus (s.withInput i).params
      (s.withInput i).world).bus =
      { (s.machine.step World.bus s.params s.world).bus with
        input := i.behind s.request } :=
    World.ext hmemory hinput' (hreplies'.trans hreplies.symm)
  rcases hstep : s.step with ⟨reason | outcome, t⟩
  · obtain ⟨herror, rfl⟩ := step_of_error hstep
    have hasked := asked_of_error hstep
    rw [asked_eq, Option.toList_eq_nil_iff] at hasked
    rw [step_of_result_error (hresult.trans herror), hasked]
    rfl
  · obtain ⟨hok, rfl⟩ := step_of_ok hstep
    rw [hok] at hresult
    simp only [step, hresult, hmachine, hworld]
    rfl

namespace Alike

/-- **Alike machines make the same step.** Behind it they are alike, if the first of them got four
bytes and has not touched the end of its input. -/
theorem exists_step (h : Alike u v s t) (hs : s.step.2.Spares u) :
    ∃ t', t.step = (s.step.1, t') ∧ Alike u v s.step.2 t' := by
  obtain ⟨shared, i, hshared, hi, rfl⟩ := h
  obtain ⟨hinput, hreplies⟩ := s.world_step
  rw [asked_eq] at hinput hreplies
  have hwords := hs.words
  have hleft := hs.left
  rw [hinput] at hleft
  rw [hreplies] at hwords
  cases hrequest : s.request with
  | none =>
    refine ⟨_, step_withInput (by rw [hrequest]; rfl), shared, i, ?_, hi, by rw [hrequest]; rfl⟩
    rw [hinput, hrequest]
    exact hshared
  | some request =>
    rw [hrequest] at hinput hleft hwords
    have hword : (s.world.input.answer request).1.a1 = 4 := hwords _ (by simp [Input.serve])
    cases request with
    | inputLen => exact absurd hword (show (0 : UInt32) ≠ 4 by decide)
    | read =>
      have hlen : (s.world.input.unread.take 4).length = 4 := by
        have hcount : (s.world.input.unread.take 4).length.toUInt32.toNat = 4 :=
          congrArg UInt32.toNat hword
        rwa [UInt32.toNat_ofNat_of_lt' (Nat.lt_of_le_of_lt (List.length_take_le 4 _) (by decide))]
          at hcount
      have hroom : 4 ≤ shared.length := by
        have hdrop : u.length ≤ (s.world.input.unread.drop 4).length :=
          s.world.input.unread_read ▸ hleft
        rw [List.length_take] at hlen
        rw [List.length_drop] at hdrop
        rw [hshared, List.length_append] at hlen hdrop
        omega
      have hgiven : i.given s.request = s.world.input.given s.request := by
        simp only [hrequest, Input.given, Option.toList_some, List.map_singleton, Input.answer,
          Input.read, hshared, hi, List.take_append_of_le_length hroom]
      refine ⟨_, step_withInput hgiven, shared.drop 4, _, ?_, ?_, rfl⟩
      · rw [hinput]
        change s.world.input.read.2.unread = _
        rw [Input.unread_read, hshared, List.drop_append_of_le_length hroom]
      · rw [hrequest]
        change i.read.2.unread = _
        rw [Input.unread_read, hi, List.drop_append_of_le_length hroom]

theorem cycles_eq (h : Alike u v s t) : t.cycles = s.cycles := by
  obtain ⟨shared, i, -, -, rfl⟩ := h
  rfl

theorem nextPages_eq (h : Alike u v s t) : t.nextPages = s.nextPages := by
  obtain ⟨shared, i, -, -, rfl⟩ := h
  rfl

theorem fresh (h : Alike u v s t) : Alike u v s.fresh t.fresh := by
  obtain ⟨shared, i, hshared, hi, rfl⟩ := h
  exact ⟨shared, i, hshared, hi, rfl⟩

end Alike

end Live

/-! ### Segments and runs -/

/-- Ends of segments that differ in nothing but the ends of the inputs that are left. -/
structure SegmentEnd.Alike (u v : Bytes) (e f : SegmentEnd) : Prop where
  exit_eq : f.exit = e.exit
  count_eq : f.count = e.count
  live : e.live.Alike u v f.live

/-- Ends of runs that differ in nothing but the ends of the inputs that are left. -/
structure Live.RunEnd.Alike (u v : Bytes) (e f : Live.RunEnd) : Prop where
  segments_eq : f.segments = e.segments
  exit_eq : f.exit = e.exit
  live : e.live.Alike u v f.live
  nextIndex_eq : f.nextIndex = e.nextIndex

namespace Live

variable {u v : Bytes} {s t : Live} {limits : RunLimits} {index : UInt32} {e f : RunEnd}

/-- Alike machines execute the same segment, if the first of them spares the end of its input. -/
theorem runSegment_alike (h : Alike u v s t) {room : Nat} {pages : List UInt32} {count : Nat}
    (hs : (s.runSegment limits room pages count).live.Spares u) :
    (s.runSegment limits room pages count).Alike u v (t.runSegment limits room pages count) := by
  induction room generalizing s t pages count with
  | zero => exact ⟨rfl, rfl, h⟩
  | succ room ih =>
    simp only [runSegment, h.cycles_eq, h.nextPages_eq] at hs ⊢
    split_ifs at hs ⊢ with hlimit hfull
    · exact ⟨rfl, rfl, h⟩
    · exact ⟨rfl, rfl, h⟩
    · have hnext := h.exists_step
      rcases hstep : s.step with ⟨reason | outcome, s'⟩
      · rw [hstep] at hs hnext
        obtain ⟨t', ht, halike⟩ := hnext hs
        rw [ht]
        exact ⟨rfl, rfl, halike⟩
      · rw [hstep] at hs hnext
        cases outcome with
        | next =>
          obtain ⟨t', ht, halike⟩ := hnext hs.of_runSegment
          rw [ht]
          exact ih halike hs
        | halted code | paused code | yielded =>
          obtain ⟨t', ht, halike⟩ := hnext hs
          rw [ht]
          exact ⟨rfl, rfl, halike⟩

/-- Alike machines leave the same segment. -/
theorem segment_alike (h : Alike u v s t) {d d' : SegmentEnd} (hd : d.Alike u v d') :
    t.segment index d' = s.segment index d := by
  obtain ⟨shared, i, -, -, rfl⟩ := h
  obtain ⟨hexit, hcount, behind, i', -, -, hlive⟩ := hd
  simp only [segment, hexit, hcount, hlive]
  rfl

namespace Runs

/-- A run does not give its input more bytes. -/
theorem length_unread_le (h : Runs limits index s e) :
    e.live.world.input.unread.length ≤ s.world.input.unread.length := by
  have hsegment (s : Live) : (s.segmentEnd limits).live.world.input.unread.length ≤
      s.world.input.unread.length := by
    rw [(stretch_segmentEnd limits s).2.after_eq, (world_after _ _).1]
    exact Input.length_unread_serve_le _ _
  induction h with
  | @last index s h => exact hsegment s
  | @split index s e h rest ih => exact Nat.le_trans ih (hsegment s)

/-- Alike machines make the same run, if the first of them gets four bytes for every call and spares
the end of its input. -/
theorem alike (h : Runs limits index s e) (hf : Runs limits index t f) (hst : Alike u v s t)
    (hwords : ∀ reply ∈ Segment.allReplies e.segments, reply.a1 = 4)
    (hleft : u.length ≤ e.live.world.input.unread.length) : e.Alike u v f := by
  induction h generalizing t f with
  | @last index s h =>
    have hspares : (s.segmentEnd limits).live.Spares u :=
      ⟨fun reply hreply => hwords reply (by simpa [Segment.allReplies, segment] using hreply),
        hleft⟩
    have hend : (s.segmentEnd limits).Alike u v (t.segmentEnd limits) :=
      runSegment_alike hst.fresh hspares
    cases hf with
    | last h' => exact ⟨by rw [segment_alike hst hend], hend.exit_eq, hend.live, rfl⟩
    | split h' rest' => exact absurd (hend.exit_eq.symm.trans h') h
  | @split index s e h rest ih =>
    have hspares : (s.segmentEnd limits).live.Spares u := by
      refine ⟨fun reply hreply => hwords reply ?_, Nat.le_trans hleft rest.length_unread_le⟩
      exact List.mem_append_left _ (by simpa [segment] using hreply)
    have hend : (s.segmentEnd limits).Alike u v (t.segmentEnd limits) :=
      runSegment_alike hst.fresh hspares
    cases hf with
    | last h' => exact absurd (hend.exit_eq.trans h) h'
    | split h' rest' =>
      obtain ⟨hsegments, hexit, hlive, hnext⟩ := ih rest' hend.live
        (fun reply hreply => hwords reply (List.mem_append_right _ hreply)) hleft
      exact ⟨by rw [segment_alike hst hend, hsegments], hexit, hlive, hnext⟩

/-- A run ends, up to the replies, where the plain run stands behind its segments. -/
theorem exists_after (h : Runs limits index s e) (hlimit : limits.segmentLimit < UInt32.size) :
    ∃ earlier, s.fresh.after (Segment.totalCount e.segments) = e.live.remembering earlier := by
  induction h with
  | @last index s h =>
    refine ⟨[], ?_⟩
    rw [Segment.totalCount, List.map_singleton, List.sum_singleton,
      instructionCount_segment hlimit, ← (stretch_segmentEnd limits s).2.after_eq, remembering_nil]
  | @split index s e h rest ih =>
    obtain ⟨earlier, hrest⟩ := ih
    refine ⟨(s.segmentEnd limits).live.world.replies.toList ++ earlier, ?_⟩
    rw [Segment.totalCount, List.map_cons, List.sum_cons, instructionCount_segment hlimit,
      after_add, ← (stretch_segmentEnd limits s).2.after_eq, ← remembering_remembering, ← hrest,
      ← after_remembering, remembering_fresh]
    rfl

end Runs

end Live

/-! ### Sessions -/

/-- Runs that differ in nothing but the inputs that are left leave the same session. -/
theorem Live.RunEnd.Alike.ofRun_eq {u v : Bytes} {e f : Live.RunEnd} (h : e.Alike u v f) :
    Session.ofRun f = Session.ofRun e := by
  obtain ⟨segments, exit, live, nextIndex⟩ := f
  obtain ⟨rfl, rfl, ⟨shared, i, -, -, rfl⟩, rfl⟩ := h
  rfl

/-- The session of a run on an input is that of the run on any input that starts with the bytes that
were read, if they were read in whole words and nothing else was asked. -/
theorem Live.Runs.ofRun_eq {limits : RunLimits} {index : UInt32} {s : Live} {e f : Live.RunEnd}
    {input other : Bytes} (h : Live.Runs limits index s e)
    (hf : Live.Runs limits index (s.withInput { bytes := other }) f) (hs : s.fresh = s)
    (hinput : s.world.input = { bytes := input }) (hlimit : limits.segmentLimit < UInt32.size)
    (hlen : input.length < UInt32.size)
    (hwords : ∀ reply ∈ Segment.allReplies e.segments, reply.a1 = 4)
    (hread : s.consumed e.segments <+: other) : Session.ofRun e = Session.ofRun f := by
  obtain ⟨hdelivered, hposition⟩ :=
    h.input_after hs hinput hlimit hlen (List.append_nil e.segments).symm
  have hfirst : s.consumed e.segments <+: input := hdelivered.allCarried_prefix
  obtain ⟨earlier, hend⟩ := h.exists_after hlimit
  rw [hs] at hend
  rw [hend] at hposition
  have hbehind : e.live.world.input.unread = input.drop (s.consumed e.segments).length :=
    congrArg Input.unread hposition
  -- Both inputs start with what was read, and the run ends with what is behind it.
  have halike : s.Alike (input.drop (s.consumed e.segments).length)
      (other.drop (s.consumed e.segments).length) (s.withInput { bytes := other }) :=
    ⟨s.consumed e.segments, _, by rw [hinput, List.prefix_iff_eq_append.mp hfirst]; rfl,
      by rw [List.prefix_iff_eq_append.mp hread]; rfl, rfl⟩
  exact (h.alike hf halike hwords (Nat.le_of_eq (congrArg List.length hbehind).symm)).ofRun_eq.symm

/-- A session whose machine asks for nothing but bytes of the input, and gets four of them each
time. -/
structure Session.ReadsWords (x : Session) (start : Live) : Prop where
  reads : ∀ request ∈ start.requests (Segment.totalCount x.segments), request = .read
  words : ∀ reply ∈ Segment.allReplies x.segments, reply.a1 = 4

/-- Accepted inputs of any size have the same limits. -/
theorem ExecutionOptions.limits_unique {o : ExecutionOptions} {params : Params} {m n : Nat}
    {l l' : RunLimits} (h : o.limits params m = .ok l) (h' : o.limits params n = .ok l') :
    l = l' := by
  unfold ExecutionOptions.limits at h h'
  split_ifs at h h'
  exact Except.ok.inj (h.symm.trans h')

/-- A paused machine that is continued on an input which it reads in whole words has the same
session on every input that starts with the bytes it reads. -/
theorem Continuation.resume_unread {c : Continuation} {input other : Bytes}
    {options : ExecutionOptions} {x y : Session} (hx : c.resume input options = .ok x)
    (hy : c.resume other options = .ok y) (hwords : x.ReadsWords (c.live input))
    (hread : (c.live input).consumed x.segments <+: other) : x = y := by
  obtain ⟨limits, hlimits, rfl⟩ := resume_eq_ok_iff.mp hx
  obtain ⟨limits', hlimits', rfl⟩ := resume_eq_ok_iff.mp hy
  obtain rfl := ExecutionOptions.limits_unique hlimits hlimits'
  exact (Live.runs_run limits c.nextSegmentIndex (c.live input)).ofRun_eq
    (Live.runs_run limits c.nextSegmentIndex (c.live other)) rfl rfl
    (ExecutionOptions.limits_lt hlimits).1 (ExecutionOptions.size_lt_of_limits hlimits)
    hwords.words hread

/-- **Input that is not read does not matter.** A program that is run on an input which it reads in
whole words, without asking for its length, has the same session on every input that starts with the
bytes it reads: the same segments, the same summary and the same continuation. -/
theorem Program.session_unread {p : Program} {input other : Bytes} {options : ExecutionOptions}
    {x y : Session} (hx : p.execute input options = .ok x) (hy : p.execute other options = .ok y)
    (hwords : x.ReadsWords (p.live input))
    (hread : (p.live input).consumed x.segments <+: other) : x = y := by
  obtain ⟨limits, hlimits, rfl⟩ := execute_eq_ok_iff.mp hx
  obtain ⟨limits', hlimits', rfl⟩ := execute_eq_ok_iff.mp hy
  obtain rfl := ExecutionOptions.limits_unique hlimits hlimits'
  exact (Live.runs_run limits 0 (p.live input)).ofRun_eq (Live.runs_run limits 0 (p.live other))
    rfl rfl (ExecutionOptions.limits_lt hlimits).1 (ExecutionOptions.size_lt_of_limits hlimits)
    hwords.words hread

namespace ReadingGuest

/-- An input that starts with what the program reads and goes on otherwise. -/
def otherInput : Bytes := [1, 2, 3, 4, 5, 6, 7, 8, 42, 43]

theorem execute_otherInput :
    program.execute otherInput options = .ok (session otherInput) := rfl

theorem readsWords_session : (session input).ReadsWords (program.live input) :=
  ⟨by decide +kernel, by decide +kernel⟩

theorem consumed_session :
    (program.live input).consumed (session input).segments = [1, 2, 3, 4, 5, 6, 7, 8] := by
  decide +kernel

end ReadingGuest

open ReadingGuest in
/-- The program that reads eight bytes does not see what is behind them. -/
theorem Program.session_unread_reading : program.execute input options = .ok (session input) ∧
    program.execute otherInput options = .ok (session otherInput) ∧
    (session input).ReadsWords (program.live input) ∧
    (program.live input).consumed (session input).segments <+: otherInput ∧
    session input = session otherInput := by
  have hread : (program.live input).consumed (session input).segments <+: otherInput := by
    rw [consumed_session]
    exact ⟨[42, 43], rfl⟩
  exact ⟨execute_input, execute_otherInput, readsWords_session, hread,
    session_unread execute_input execute_otherInput readsWords_session hread⟩

end ReplayVM
