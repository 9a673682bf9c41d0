import Mathlib.Data.List.Forall2
import ReplayVM.Execution.Session
import ReplayVM.Proofs.Steps

/-!
# Memories that machines do not tell apart

A machine sees of its memory the words that it loads, and others see of it the roots that enter its
commitments. A relation between memories simulates when related memories agree in both and stay
related under the stores of a machine. Machines over related memories then do the same: step by
step, segment by segment, and up to the end of their sessions, with related memories in the
snapshots that they leave.

## Main definitions

* `Params.Reaches`: the word addresses that instructions access.
* `Memory.Simulation`: a relation that simulates under some parameters.
* `Bus.Simulation`: the same of what stands behind a bus.
* `AgreesUpTo`: results with one error, or with related values.
* `Segment.Related`, `Continuation.Related`, `Session.Related`: what is equal but for related
  memories.

## Main results

* `Machine.step_related`: steps over related states of a bus are related.
* `Live.runSegment_related`, `Live.runFrom_related`: so are segments and runs.
* `Program.execute_related`, `Continuation.resume_related`: so are sessions.
-/

namespace ReplayVM

/-! ### Results that agree -/

/-- Results with one error, or with related values. -/
inductive AgreesUpTo {ε α β : Type} (related : α → β → Prop) : Except ε α → Except ε β → Prop where
  | error (e : ε) : AgreesUpTo related (.error e) (.error e)
  | ok {a : α} {b : β} (h : related a b) : AgreesUpTo related (.ok a) (.ok b)

section

variable {ε α β γ δ : Type} {related : α → β → Prop} {related' : γ → δ → Prop}

/-- What goes on alike from results that agree agrees. -/
theorem AgreesUpTo.bind {x : Except ε α} {y : Except ε β} {f : α → Except ε γ} {g : β → Except ε δ}
    (h : AgreesUpTo related x y) (hnext : ∀ a b, related a b → AgreesUpTo related' (f a) (g b)) :
    AgreesUpTo related' (x >>= f) (y >>= g) := by
  cases h with
  | error e => exact .error e
  | ok hab => exact hnext _ _ hab

/-- Behind one result, what goes on alike agrees. -/
theorem AgreesUpTo.bind_left (x : Except ε α) {f : α → Except ε γ} {g : α → Except ε δ}
    (hnext : ∀ a, AgreesUpTo related' (f a) (g a)) : AgreesUpTo related' (x >>= f) (x >>= g) := by
  cases x with
  | error e => exact .error e
  | ok a => exact hnext a

theorem AgreesUpTo.eq {x y : Except ε α} (h : AgreesUpTo Eq x y) : x = y := by
  cases h with
  | error e => rfl
  | ok hab => exact congrArg _ hab

theorem AgreesUpTo.of_eq {x y : Except ε α} (h : x = y) : AgreesUpTo Eq x y := by
  subst h
  cases x with
  | error e => exact .error e
  | ok a => exact .ok rfl

/-- What agrees with a value is a related value. -/
theorem AgreesUpTo.exists_of_ok {a : α} {y : Except ε β} (h : AgreesUpTo related (.ok a) y) :
    ∃ b, y = .ok b ∧ related a b := by
  cases h with
  | ok hab => exact ⟨_, rfl, hab⟩

/-- What agrees with an error is that error. -/
theorem AgreesUpTo.eq_of_error {e : ε} {y : Except ε β} (h : AgreesUpTo related (.error e) y) :
    y = .error e := by
  cases h with
  | error e => rfl

end

/-! ### Relations that simulate -/

/-- The word addresses that instructions access under some parameters. -/
def Params.Reaches (params : Params) (addr : UInt32) : Prop :=
  ∃ data, params.isValidAddr data = true ∧ addr = alignDown data

/-- Instructions are fetched from where they can be accessed. -/
theorem Params.reaches_of_canFetch {params : Params} {pc : UInt32}
    (h : Machine.canFetch params pc = true) : params.Reaches pc := by
  obtain ⟨halign, hvalid⟩ := Machine.alignDown_of_canFetch h
  exact ⟨pc, hvalid, halign.symm⟩

/-- A relation between memories whose words and roots agree, and which stores preserve. -/
structure Memory.Simulation (params : Params) (R : Memory → Memory → Prop) : Prop where
  loadWord_eq : ∀ {m n : Memory} {addr : UInt32}, R m n → params.Reaches addr →
    m.loadWord addr = n.loadWord addr
  storeWord : ∀ {m n : Memory} {addr : UInt32} (value : UInt32), R m n → params.Reaches addr →
    R (m.storeWord addr value) (n.storeWord addr value)
  root_eq : ∀ {m n : Memory}, R m n → m.root = n.root
  path_eq : ∀ {m n : Memory} {addr : UInt32}, R m n → params.Reaches addr →
    m.path addr = n.path addr

variable {σ τ : Type}

/-- A relation between the states of two buses that answer the same and stay related. -/
structure Bus.Simulation (params : Params) (bus : Bus σ) (bus' : Bus τ) (R : σ → τ → Prop) :
    Prop where
  fetch : ∀ {s t pc}, R s t → params.Reaches pc →
    (bus.fetch s pc).1 = (bus'.fetch t pc).1 ∧ R (bus.fetch s pc).2 (bus'.fetch t pc).2
  load : ∀ {s t addr}, R s t → params.Reaches addr →
    (bus.load s addr).1 = (bus'.load t addr).1 ∧ R (bus.load s addr).2 (bus'.load t addr).2
  store : ∀ {s t addr value}, R s t → params.Reaches addr →
    R (bus.store s addr value) (bus'.store t addr value)
  call : ∀ {s t} (request), R s t →
    (bus.call s request).1 = (bus'.call t request).1 ∧
      R (bus.call s request).2 (bus'.call t request).2

/-- Results of a step that differ in nothing but related states of the bus. -/
structure StepResult.Related (R : σ → τ → Prop) (r : StepResult σ) (r' : StepResult τ) : Prop where
  result_eq : r.result = r'.result
  machine_eq : r.machine = r'.machine
  bus : R r.bus r'.bus

section

variable {params : Params} {bus : Bus σ} {bus' : Bus τ} {R : σ → τ → Prop} {m : Machine} {s : σ}
  {t : τ}

/-- Effects that access valid addresses are related over related states. -/
theorem Effect.run_related (h : Bus.Simulation params bus bus' R) (hR : R s t) {effect : Effect}
    (hproper : effect.Proper params m) : (effect.run bus s).Related R (effect.run bus' t) := by
  cases hproper with
  | finish | write => exact ⟨rfl, rfl, hR⟩
  | load hvalid =>
    obtain ⟨hword, hR'⟩ := h.load hR ⟨_, hvalid, rfl⟩
    exact ⟨rfl, by simp only [Effect.run, hword], hR'⟩
  | store hvalid =>
    obtain ⟨hword, hR'⟩ := h.load hR ⟨_, hvalid, rfl⟩
    refine ⟨rfl, rfl, ?_⟩
    simp only [Effect.run, hword]
    exact h.store hR' ⟨_, hvalid, rfl⟩
  | call =>
    rename_i request next _
    obtain ⟨hreply, hR'⟩ := h.call request hR
    exact ⟨rfl, by simp only [Effect.run, hreply], hR'⟩

/-- Steps over related states of a bus are related. -/
theorem Machine.step_related (h : Bus.Simulation params bus bus' R) (hR : R s t) :
    (m.step bus params s).Related R (m.step bus' params t) := by
  cases hf : canFetch params m.cpu.pc with
  | false =>
    rw [step_of_not_canFetch hf, step_of_not_canFetch hf]
    exact ⟨rfl, rfl, hR⟩
  | true =>
    obtain ⟨hword, hR'⟩ := h.fetch hR (Params.reaches_of_canFetch hf)
    cases hp : m.plan params (bus.fetch s m.cpu.pc).1 with
    | error reason =>
      rw [step_of_plan_error hf hp, step_of_plan_error hf (hword ▸ hp)]
      exact ⟨rfl, rfl, hR'⟩
    | ok effect =>
      rw [step_of_plan_ok hf hp, step_of_plan_ok hf (hword ▸ hp)]
      exact Effect.run_related h hR' (proper_of_plan hp)

end

/-! ### Running machines -/

variable {params : Params} {R : Memory → Memory → Prop}

/-- Worlds that differ in nothing but related memories. -/
structure World.Related (R : Memory → Memory → Prop) (w v : World) : Prop where
  memory : R w.memory v.memory
  input_eq : w.input = v.input
  replies_eq : w.replies = v.replies

theorem World.simulation (h : Memory.Simulation params R) :
    Bus.Simulation params World.bus World.bus (World.Related R) where
  fetch hw hpc := ⟨h.loadWord_eq hw.memory hpc, hw⟩
  load hw haddr := ⟨h.loadWord_eq hw.memory haddr, hw⟩
  store hw haddr := ⟨h.storeWord _ hw.memory haddr, hw.input_eq, hw.replies_eq⟩
  call request hw := by
    simp only [World.bus, hw.input_eq, hw.replies_eq, true_and]
    exact ⟨hw.memory, rfl, rfl⟩

/-- Running machines that differ in nothing but related memories. -/
structure Live.Related (params : Params) (R : Memory → Memory → Prop) (s t : Live) : Prop where
  params_left : s.params = params
  params_right : t.params = params
  machine_eq : s.machine = t.machine
  world : s.world.Related R t.world
  journal_eq : s.journal = t.journal
  cycles_eq : s.cycles = t.cycles

/-- Ends of segments that differ in nothing but related memories. -/
structure SegmentEnd.Related (params : Params) (R : Memory → Memory → Prop) (e f : SegmentEnd) :
    Prop where
  exit_eq : e.exit = f.exit
  count_eq : e.count = f.count
  live : e.live.Related params R f.live

namespace Live

variable {s t : Live}

theorem Related.state_eq (h : Memory.Simulation params R) (hs : s.Related params R t) :
    s.state = t.state := by
  rw [state, state, hs.machine_eq, h.root_eq hs.world.memory]

theorem Related.fresh (hs : s.Related params R t) : s.fresh.Related params R t.fresh :=
  { hs with world := ⟨hs.world.memory, hs.world.input_eq, rfl⟩ }

/-- Related machines make the same step. -/
theorem step_related (h : Memory.Simulation params R) (hs : s.Related params R t) :
    s.step.1 = t.step.1 ∧ s.step.2.Related params R t.step.2 := by
  have hstep : (s.machine.step World.bus s.params s.world).Related (World.Related R)
      (t.machine.step World.bus t.params t.world) := by
    rw [hs.params_left, hs.params_right, hs.machine_eq]
    exact Machine.step_related (World.simulation h) hs.world
  simp only [step, ← hstep.result_eq]
  cases (s.machine.step World.bus s.params s.world).result with
  | error reason =>
    exact ⟨rfl, hs.params_left, hs.params_right, hstep.machine_eq, hstep.bus, hs.journal_eq,
      hs.cycles_eq⟩
  | ok outcome =>
    refine ⟨rfl, hs.params_left, hs.params_right, hstep.machine_eq, hstep.bus, ?_,
      congrArg (· + 1) hs.cycles_eq⟩
    simp only [hstep.machine_eq, hs.journal_eq]
    rw [hs.machine_eq]

/-- Related machines touch the same pages. -/
theorem nextPages_eq (h : Memory.Simulation params R) (hs : s.Related params R t) :
    s.nextPages = t.nextPages := by
  unfold nextPages dataPage
  simp only [hs.params_left, hs.params_right, hs.machine_eq]
  split
  · rename_i hf
    rw [h.loadWord_eq hs.world.memory (Params.reaches_of_canFetch hf)]
  · rfl

/-- Related machines execute the same segment. -/
theorem runSegment_related (h : Memory.Simulation params R) (hs : s.Related params R t)
    (limits : RunLimits) (room : Nat) (pages : List UInt32) (count : Nat) :
    (s.runSegment limits room pages count).Related params R
      (t.runSegment limits room pages count) := by
  induction room generalizing s t pages count with
  | zero => exact ⟨rfl, rfl, hs⟩
  | succ room ih =>
    simp only [runSegment, hs.cycles_eq, nextPages_eq h hs]
    split
    · exact ⟨rfl, rfl, hs⟩
    split
    · exact ⟨rfl, rfl, hs⟩
    obtain ⟨hresult, hnext⟩ := step_related h hs
    generalize s.step = x at hresult hnext ⊢
    generalize t.step = y at hresult hnext ⊢
    obtain ⟨result, s'⟩ := x
    obtain ⟨result', t'⟩ := y
    obtain rfl : result = result' := hresult
    cases result with
    | error reason => exact ⟨rfl, rfl, hnext⟩
    | ok outcome =>
      cases outcome with
      | next => exact ih hnext _ _
      | halted code => exact ⟨rfl, rfl, hnext⟩
      | paused code => exact ⟨rfl, rfl, hnext⟩
      | yielded => exact ⟨rfl, rfl, hnext⟩

theorem segmentEnd_related (h : Memory.Simulation params R) (hs : s.Related params R t)
    (limits : RunLimits) :
    (s.segmentEnd limits).Related params R (t.segmentEnd limits) :=
  runSegment_related h hs.fresh limits _ _ _

end Live

/-! ### Segments and runs -/

/-- Traces that differ in nothing but related memories. -/
structure Trace.Related (R : Memory → Memory → Prop) (t u : Trace) : Prop where
  startCpu_eq : t.startCpu = u.startCpu
  startMemory : R t.startMemory u.startMemory
  startOutput_eq : t.startOutput = u.startOutput
  hostReplies_eq : t.hostReplies = u.hostReplies

/-- Segments that differ in nothing but related memories. -/
structure Segment.Related (R : Memory → Memory → Prop) (s t : Segment) : Prop where
  index_eq : s.index = t.index
  startCommitment_eq : s.startCommitment = t.startCommitment
  endCommitment_eq : s.endCommitment = t.endCommitment
  instructionCount_eq : s.instructionCount = t.instructionCount
  exitCode_eq : s.exitCode = t.exitCode
  outputDigest_eq : s.outputDigest = t.outputDigest
  params_eq : s.params = t.params
  configDigest_eq : s.configDigest = t.configDigest
  trace : s.trace.Related R t.trace

/-- Ends of runs that differ in nothing but related memories. -/
structure Live.RunEnd.Related (params : Params) (R : Memory → Memory → Prop) (e f : Live.RunEnd) :
    Prop where
  segments : e.segments.Forall₂ (Segment.Related R) f.segments
  exit_eq : e.exit = f.exit
  live : e.live.Related params R f.live
  nextIndex_eq : e.nextIndex = f.nextIndex

namespace Live

variable {s t : Live}

theorem segment_related (h : Memory.Simulation params R) (hs : s.Related params R t)
    {e f : SegmentEnd} (he : e.Related params R f) (index : UInt32) :
    (s.segment index e).Related R (t.segment index f) where
  index_eq := rfl
  startCommitment_eq := congrArg SystemState.commitment (hs.state_eq h)
  endCommitment_eq := congrArg SystemState.commitment (he.live.state_eq h)
  instructionCount_eq := congrArg Nat.toUInt32 he.count_eq
  exitCode_eq := he.exit_eq
  outputDigest_eq := congrArg (·.output.digest) he.live.machine_eq
  params_eq := hs.params_left.trans hs.params_right.symm
  configDigest_eq := congrArg Params.configDigest (hs.params_left.trans hs.params_right.symm)
  trace :=
    { startCpu_eq := congrArg Machine.cpu hs.machine_eq
      startMemory := hs.world.memory
      startOutput_eq := congrArg Machine.output hs.machine_eq
      hostReplies_eq := congrArg Array.toList he.live.world.replies_eq }

/-- Segments that are pushed behind related segments are related with them. -/
theorem push_related (h : Memory.Simulation params R) (limits : RunLimits)
    {done done' : Array Segment} (index : UInt32) (hs : s.Related params R t)
    (hdone : done.toList.Forall₂ (Segment.Related R) done'.toList) :
    (done.push (s.segment index (s.segmentEnd limits))).toList.Forall₂ (Segment.Related R)
      (done'.push (t.segment index (t.segmentEnd limits))).toList := by
  rw [Array.toList_push, Array.toList_push]
  have hlast := segment_related h hs (segmentEnd_related h hs limits) index
  exact List.rel_append hdone (.cons hlast .nil)

/-- Related machines run to related ends, behind related segments. -/
theorem runFrom_related (h : Memory.Simulation params R) (limits : RunLimits)
    {done done' : Array Segment} (index : UInt32) (hs : s.Related params R t)
    (hdone : done.toList.Forall₂ (Segment.Related R) done'.toList) :
    (s.runFrom limits done index).Related params R (t.runFrom limits done' index) := by
  fun_induction runFrom limits done index s generalizing t done' with
  | case1 done index s =>
    rename_i hsplit ih
    have he := segmentEnd_related h hs limits
    rw [runFrom.eq_def limits done', dif_pos (he.exit_eq ▸ hsplit)]
    exact ih he.live (push_related h limits index hs hdone)
  | case2 done index s =>
    rename_i hsplit
    have he := segmentEnd_related h hs limits
    rw [runFrom.eq_def limits done', dif_neg (he.exit_eq ▸ hsplit)]
    exact ⟨push_related h limits index hs hdone, he.exit_eq, he.live, rfl⟩

end Live

/-! ### Sessions -/

/-- Paused machines that differ in nothing but related memories. -/
structure Continuation.Related (R : Memory → Memory → Prop) (c d : Continuation) : Prop where
  params_eq : c.params = d.params
  cpu_eq : c.cpu = d.cpu
  memory : R c.memory d.memory
  output_eq : c.output = d.output
  journal_eq : c.journal = d.journal
  nextSegmentIndex_eq : c.nextSegmentIndex = d.nextSegmentIndex

/-- Sessions that differ in nothing but related memories: in the snapshots of their segments, and in
the paused machine. -/
structure Session.Related (R : Memory → Memory → Prop) (x y : Session) : Prop where
  segments : x.segments.Forall₂ (Segment.Related R) y.segments
  info_eq : x.info = y.info
  continuation : Option.Rel (Continuation.Related R) x.continuation y.continuation

theorem Session.ofRun_related {e f : Live.RunEnd} (h : e.Related params R f) :
    (Session.ofRun e).Related R (Session.ofRun f) where
  segments := h.segments
  info_eq := by
    simp only [ofRun, h.exit_eq, h.live.machine_eq, h.live.journal_eq, h.live.cycles_eq,
      h.segments.length_eq]
  continuation := by
    simp only [ofRun, continuationOf, h.exit_eq]
    split
    · exact .some ⟨h.live.params_left.trans h.live.params_right.symm,
        congrArg Machine.cpu h.live.machine_eq, h.live.world.memory,
        congrArg Machine.output h.live.machine_eq, congrArg Array.toList h.live.journal_eq,
        h.nextIndex_eq⟩
    · exact .none

/-- Programs that differ in nothing but related memories have related sessions on every input. -/
theorem Program.execute_related {p q : Program} (h : Memory.Simulation p.params R)
    (hparams : p.params = q.params) (hentry : p.entry = q.entry) (hmemory : R p.memory q.memory)
    (input : Bytes) (options : ExecutionOptions) :
    AgreesUpTo (Session.Related R) (p.execute input options) (q.execute input options) := by
  have hlive : (p.live input).Related p.params R (q.live input) :=
    ⟨rfl, hparams.symm, by simp only [live, initialMachine, hparams, hentry], ⟨hmemory, rfl, rfl⟩,
      rfl, rfl⟩
  unfold execute
  rw [← hparams]
  exact .bind_left _ fun limits =>
    .ok (Session.ofRun_related (Live.runFrom_related h limits 0 hlive .nil))

/-- Paused machines that differ in nothing but related memories have related sessions on every
input. -/
theorem Continuation.resume_related {c d : Continuation} (h : Memory.Simulation c.params R)
    (hcd : c.Related R d) (input : Bytes) (options : ExecutionOptions) :
    AgreesUpTo (Session.Related R) (c.resume input options) (d.resume input options) := by
  have hlive : (c.live input).Related c.params R (d.live input) :=
    ⟨rfl, hcd.params_eq.symm, by simp only [live, hcd.cpu_eq, hcd.output_eq],
      ⟨hcd.memory, rfl, rfl⟩, congrArg List.toArray hcd.journal_eq, rfl⟩
  unfold resume
  rw [← hcd.params_eq, ← hcd.nextSegmentIndex_eq]
  exact .bind_left _ fun limits =>
    .ok (Session.ofRun_related (Live.runFrom_related h limits _ hlive .nil))

end ReplayVM
