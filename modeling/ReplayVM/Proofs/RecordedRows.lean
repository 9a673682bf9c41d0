import ReplayVM.Proofs.ProvingCompleteness

/-!
# Rows of repeated executions

A machine that is executed again need not have a memory that fits the parameters: its rows are
recorded from whatever snapshot there is. Their paths are as long as the tree of the snapshot is
deep, and such a row is replayed only under parameters whose tree has the same depth. When the
address space is that of the parameters, the recorded rows follow each other and the last one shows
the fault that the exit states. The page size does not matter, because pages are not committed to.

## Main definitions

* `Row.HasDepth`: a row whose paths have a given length.
* `Memory.WellFormedOver`: a well-formed memory over the address space of parameters.

## Main results

* `Playback.hasDepth_rows`, `Playback.hasDepth_finalRow`: the paths of recorded rows.
* `Row.HasDepth.eq_of_replay`: the depth at which a row is replayed.
* `Playback.rowsFollow_of_rows`, `Playback.faultFollows_finalRow`: recorded rows follow each other.
-/

namespace ReplayVM

/-! ### Lengths of paths -/

namespace MerkleTree

theorem length_siblingsFrom (levels : List MerkleLevel) (index : Nat) :
    (siblingsFrom levels index).length = levels.length - 1 := by
  induction levels generalizing index with
  | nil => rfl
  | cons l levels ih =>
    cases levels with
    | nil => rfl
    | cons above levels =>
      rw [siblingsFrom, List.length_cons, ih]
      simp

theorem depth_update (t : MerkleTree) (index : Nat) (word : UInt32) :
    (t.update index word).depth = t.depth := by
  rw [depth, update, length_updateFrom, depth]

end MerkleTree

theorem Memory.length_path (m : Memory) (addr : UInt32) :
    (m.path addr).siblings.length = m.tree.depth :=
  MerkleTree.length_siblingsFrom _ _

theorem Memory.depth_storeWord (m : Memory) (addr value : UInt32) :
    (m.storeWord addr value).tree.depth = m.tree.depth :=
  MerkleTree.depth_update _ _ _

theorem Memory.WellFormed.depth_eq {m : Memory} (h : m.WellFormed) :
    m.tree.depth = treeDepth m.memoryBits := by
  rw [MerkleTree.depth, h.tree.length_levels, Nat.add_sub_cancel]

/-- A row whose paths have a given length. -/
structure Row.HasDepth (r : Row) (depth : Nat) : Prop where
  fetch : ∀ f ∈ r.fetch, f.path.siblings.length = depth
  data : ∀ d ∈ r.data, d.path.siblings.length = depth

theorem Row.HasDepth.hasShortPaths {r : Row} {depth : Nat} (h : r.HasDepth depth)
    (hlt : depth < UInt64.size) : r.HasShortPaths :=
  ⟨fun f hf => by rwa [h.fetch f hf], fun d hd => by rwa [h.data d hd]⟩

/-- A row with an instruction word is only replayed when its path is as long as the tree of the
parameters is deep. -/
theorem Row.HasDepth.eq_of_replay {r : Row} {depth : Nat} (h : r.HasDepth depth) {params : Params}
    (hfetch : r.fetch.isSome = true) {result : Except FaultReason StepOutcome × SystemState}
    (hreplay : r.replay params = .ok result) : depth = params.merkleDepth := by
  obtain ⟨hauthentic, -, -⟩ := replay_eq_ok_iff.mp hreplay
  obtain ⟨f, hf⟩ := Option.isSome_iff_exists.mp hfetch
  rw [fetchIsAuthentic, hf, Option.all_some] at hauthentic
  rw [← h.fetch f hf, MerklePath.length_of_authenticates hauthentic]

/-! ### What a recorder notes -/

namespace Playback

variable {params : Params} {p q : Playback}

/-- The recorder behind a fetch. -/
def fetched (p : Playback) : Recorder :=
  (Recorder.fetchWord { memory := p.memory, replies := p.replies } p.machine.cpu.pc).2

theorem step_of_plan_ok {effect : Effect} (hf : Machine.canFetch params p.machine.cpu.pc = true)
    (hp : p.machine.plan params (p.memory.loadWord p.machine.cpu.pc) = .ok effect) :
    p.step params = effect.run Recorder.bus p.fetched :=
  Machine.step_of_plan_ok hf hp

/-- The cases of a step behind a recorder. -/
theorem step_cases (params : Params) (p : Playback) :
    (Machine.canFetch params p.machine.cpu.pc = false ∧ p.step params =
      ⟨.error (.instructionFault p.machine.cpu.pc), p.machine,
        { memory := p.memory, replies := p.replies }⟩) ∨
    (Machine.canFetch params p.machine.cpu.pc = true ∧
      ((∃ reason, p.step params = ⟨.error reason, p.machine, p.fetched⟩) ∨
        ∃ effect : Effect, p.step params = effect.run Recorder.bus p.fetched)) := by
  cases hf : Machine.canFetch params p.machine.cpu.pc with
  | false => exact .inl ⟨rfl, Machine.step_of_not_canFetch hf⟩
  | true =>
    refine .inr ⟨rfl, ?_⟩
    cases hp : p.machine.plan params (p.memory.loadWord p.machine.cpu.pc) with
    | error reason => exact .inl ⟨reason, Machine.step_of_plan_error hf hp⟩
    | ok effect => exact .inr ⟨effect, step_of_plan_ok hf hp⟩

/-- A step keeps the depth of the tree, and the paths that are noted have this length. -/
theorem hasDepth_step (params : Params) {depth : Nat} (h : p.memory.tree.depth = depth) :
    (p.step params).bus.memory.tree.depth = depth ∧
      (p.row (p.step params).bus).HasDepth depth := by
  have hfetch : ∀ f ∈ p.fetched.fetch, f.path.siblings.length = depth := by
    intro f hf
    obtain rfl := Option.some.inj hf
    exact (Memory.length_path _ _).trans h
  obtain ⟨-, hs⟩ | ⟨-, ⟨reason, hs⟩ | ⟨effect, hs⟩⟩ := step_cases params p
  · rw [hs]
    exact ⟨h, by simp [row], by simp [row]⟩
  · rw [hs]
    exact ⟨h, hfetch, by simp [row, fetched, Recorder.fetchWord]⟩
  · rw [hs]
    cases effect with
    | finish outcome next =>
      exact ⟨h, hfetch, by simp [row, fetched, Recorder.fetchWord, Effect.run]⟩
    | load addr next =>
      refine ⟨h, hfetch, fun d hd => ?_⟩
      obtain rfl := Option.some.inj hd
      exact (Memory.length_path _ _).trans h
    | store addr merge next =>
      refine ⟨(Memory.depth_storeWord _ _ _).trans h, hfetch, fun d hd => ?_⟩
      simp [row, Effect.run, Recorder.bus, Recorder.storeWord, Recorder.loadWord, fetched,
        Recorder.fetchWord] at hd
      rw [← hd]
      exact (Memory.length_path _ _).trans h
    | call request next =>
      cases hr : p.replies with
      | nil =>
        simp only [Effect.run, Recorder.bus, Recorder.reply, fetched, Recorder.fetchWord, hr]
        exact ⟨h, hfetch, by simp [row]⟩
      | cons a replies =>
        simp only [Effect.run, Recorder.bus, Recorder.reply, fetched, Recorder.fetchWord, hr]
        exact ⟨h, hfetch, by simp [row]⟩

/-- A step notes an instruction word if there is one at the program counter. -/
theorem isSome_fetch_step :
    (p.step params).bus.fetch.isSome = Machine.canFetch params p.machine.cpu.pc := by
  obtain ⟨hf, hs⟩ | ⟨hf, ⟨reason, hs⟩ | ⟨effect, hs⟩⟩ := step_cases params p
  · rw [hs, hf]
    rfl
  · rw [hs, hf]
    rfl
  · rw [hs, hf]
    cases effect with
    | finish | load | store => rfl
    | call =>
      cases hr : p.replies <;>
        simp [Effect.run, Recorder.bus, Recorder.reply, fetched, Recorder.fetchWord, hr]

/-- A step that faults asks for no answer of the host. -/
theorem exhausted_step_of_error {reason : FaultReason}
    (h : (p.step params).result = .error reason) : (p.step params).bus.exhausted = false := by
  obtain ⟨-, hs⟩ | ⟨-, ⟨reason', hs⟩ | ⟨effect, hs⟩⟩ := step_cases params p
  · rw [hs]
  · rw [hs]
    rfl
  · obtain ⟨outcome, ho⟩ := effect.run_result Recorder.bus p.fetched
    rw [hs, ho] at h
    simp at h

/-! ### Recorded rows -/

theorem advance_eq_ok_iff {index : Nat} {outcome : StepOutcome} {row : Row} :
    p.advance params index = .ok (outcome, row, q) ↔
      (p.step params).result = .ok outcome ∧ (p.step params).bus.exhausted = false ∧
      row = p.row (p.step params).bus ∧
      q = ⟨(p.step params).machine, (p.step params).bus.memory, (p.step params).bus.replies⟩ := by
  unfold advance
  cases hr : (p.step params).result with
  | error reason => simp [hr]
  | ok found =>
    cases hx : (p.step params).bus.exhausted with
    | true => simp [hr, hx]
    | false =>
      simp only [hr, hx, Bool.false_eq_true, if_false, Except.ok.injEq, Prod.mk.injEq, true_and]
      exact ⟨fun ⟨h₁, h₂, h₃⟩ => ⟨h₁, h₂.symm, h₃.symm⟩, fun ⟨h₁, h₂, h₃⟩ => ⟨h₁, h₂.symm, h₃.symm⟩⟩

theorem rows_succ_eq_ok_iff {exit : ExitCode} {count index : Nat} {rows : List Row} :
    p.rows params exit (count + 1) index = .ok (rows, q) ↔ ∃ outcome row p' tail,
      p.advance params index = .ok (outcome, row, p') ∧
      checkOutcome exit index (count = 0) outcome = .ok () ∧
      p'.rows params exit count (index + 1) = .ok (tail, q) ∧ rows = row :: tail := by
  rw [Playback.rows, bind_eq_ok_iff]
  constructor
  · rintro ⟨⟨outcome, row, p'⟩, hadvance, h⟩
    obtain ⟨⟨⟩, houtcome, h⟩ := bind_eq_ok_iff.mp h
    obtain ⟨⟨tail, q'⟩, htail, h⟩ := bind_eq_ok_iff.mp h
    obtain ⟨rfl, rfl⟩ := Prod.mk.inj (Except.ok.inj h)
    exact ⟨outcome, row, p', tail, hadvance, houtcome, htail, rfl⟩
  · rintro ⟨outcome, row, p', tail, hadvance, houtcome, htail, rfl⟩
    exact ⟨_, hadvance, bind_eq_ok_iff.mpr ⟨_, houtcome, bind_eq_ok_iff.mpr ⟨_, htail, rfl⟩⟩⟩

/-- The first row holds the state at the start. -/
theorem state_eq_of_head? {exit : ExitCode} {count index : Nat} {rows : List Row}
    (h : p.rows params exit count index = .ok (rows, q)) {last : Row}
    (hlast : last.state = q.state) :
    ∀ first ∈ (rows ++ [last]).head?, first.state = p.state := by
  cases count with
  | zero =>
    obtain ⟨rfl, rfl⟩ := Prod.mk.inj (Except.ok.inj h)
    simpa using hlast
  | succ count =>
    obtain ⟨outcome, row, p', tail, hadvance, -, -, rfl⟩ := rows_succ_eq_ok_iff.mp h
    obtain ⟨-, -, rfl, -⟩ := advance_eq_ok_iff.mp hadvance
    intro first hfirst
    obtain rfl := Option.some.inj hfirst
    rfl

/-- Recorded rows are as many as there are instructions, their paths are as long as the tree is
deep, and the first of them has an instruction word. -/
theorem hasDepth_rows {exit : ExitCode} {count index depth : Nat} {rows : List Row}
    (hdepth : p.memory.tree.depth = depth)
    (h : p.rows params exit count index = .ok (rows, q)) :
    rows.length = count ∧ q.memory.tree.depth = depth ∧ (∀ row ∈ rows, row.HasDepth depth) ∧
      ∀ first ∈ rows.head?, first.fetch.isSome = true := by
  induction count generalizing p index rows with
  | zero =>
    obtain ⟨rfl, rfl⟩ := Prod.mk.inj (Except.ok.inj h)
    exact ⟨rfl, hdepth, by simp, by simp⟩
  | succ count ih =>
    obtain ⟨outcome, row, p', tail, hadvance, -, htail, rfl⟩ := rows_succ_eq_ok_iff.mp h
    obtain ⟨hresult, -, rfl, rfl⟩ := advance_eq_ok_iff.mp hadvance
    obtain ⟨hmemory, hrow⟩ := hasDepth_step params hdepth
    obtain ⟨hlen, hq, hall, -⟩ := ih hmemory htail
    refine ⟨by rw [List.length_cons, hlen], hq, ?_, ?_⟩
    · intro row h
      rcases List.mem_cons.mp h with rfl | h
      · exact hrow
      · exact hall row h
    · intro first hfirst
      obtain rfl := Option.some.inj hfirst
      refine isSome_fetch_step.trans ?_
      by_contra hf
      rw [Bool.not_eq_true] at hf
      rw [step, Machine.step_of_not_canFetch hf] at hresult
      simp at hresult

end Playback

/-! ### The address space -/

/-- A well-formed memory over the address space of parameters, whatever its pages. -/
structure Memory.WellFormedOver (m : Memory) (params : Params) : Prop extends m.WellFormed where
  memoryBits_eq : m.memoryBits = params.memoryBits

/-- Parameters with the pages of a memory. -/
def Params.pagedAs (params : Params) (m : Memory) : Params := { params with pageSize := m.pageSize }

theorem Memory.WellFormedOver.wellFormedFor {m : Memory} {params : Params}
    (h : m.WellFormedOver params) : m.WellFormedFor (params.pagedAs m) where
  toWellFormed := h.toWellFormed
  pageSize_eq := rfl
  memoryBits_eq := h.memoryBits_eq

theorem Memory.wellFormedOver_iff {m : Memory} {params : Params} (hm : m.WellFormed)
    (hvalid : params.validate = .ok ()) :
    m.WellFormedOver params ↔ m.tree.depth = params.merkleDepth := by
  obtain ⟨⟨hge, -⟩, -⟩ := Params.validate_eq_ok_iff.mp hvalid
  have hmge := hm.memoryBits_ge
  rw [hm.depth_eq, hm.treeDepth_eq, Params.merkleDepth_eq (Params.two_le_memoryBits hvalid)]
  constructor
  · intro h
    rw [h.memoryBits_eq]
  · intro h
    exact ⟨hm, UInt32.toNat_inj.mp (by omega)⟩

namespace Playback

variable {params : Params} {p q : Playback}

/-- A recorded row is replayed to what its instruction gave, whatever the pages of the memory. -/
theorem replay_row_of_over (hm : p.memory.WellFormedOver params)
    (hanswered : (p.step params).bus.exhausted = false) :
    (p.row (p.step params).bus).replay params =
        .ok ((p.step params).result, .of (p.step params).machine (p.step params).bus.memory.root) ∧
      (p.step params).bus.memory.WellFormedOver params := by
  -- Neither a step nor the replay of a row looks at the page size of the parameters.
  have hstep : p.step (params.pagedAs p.memory) = p.step params := rfl
  have hreplay (r : Row) : r.replay (params.pagedAs p.memory) = r.replay params := rfl
  obtain ⟨hrow, hnext⟩ := replay_row hm.wellFormedFor (hstep ▸ hanswered)
  rw [hreplay, hstep] at hrow
  exact ⟨hrow, hnext.toWellFormed, hnext.memoryBits_eq⟩

theorem allows_of_checkOutcome {c : SegmentClaim} {exit : ExitCode} {index count : Nat}
    {outcome : StepOutcome} (hexit : c.exitCode = exit)
    (hcount : c.instructionCount.toNat = index + (count + 1))
    (h : checkOutcome exit index (count = 0) outcome = .ok ()) : c.allows index outcome = true := by
  unfold checkOutcome at h
  unfold SegmentClaim.allows
  by_cases hzero : count = 0
  · simp only [hzero, decide_true, if_true] at h
    split_ifs at h with hallows
    rw [if_pos (by omega), hexit]
    exact hallows
  · simp only [hzero, decide_false, Bool.false_eq_true, if_false] at h
    split_ifs at h with hnext
    rw [if_neg (by omega)]
    exact decide_eq_true hnext

/-- Recorded rows follow each other, up to a row of the state behind them. -/
theorem rowsFollow_of_rows {c : SegmentClaim} {exit : ExitCode} {count index : Nat}
    {rows : List Row} (hm : p.memory.WellFormedOver params) (hexit : c.exitCode = exit)
    (hcount : c.instructionCount.toNat = index + count)
    (h : p.rows params exit count index = .ok (rows, q)) :
    q.memory.WellFormedOver params ∧ ∀ last : Row, last.state = q.state →
      c.RowsFollow params index (rows ++ [last]) := by
  induction count generalizing p index rows with
  | zero =>
    obtain ⟨rfl, rfl⟩ := Prod.mk.inj (Except.ok.inj h)
    exact ⟨hm, fun _ _ => trivial⟩
  | succ count ih =>
    obtain ⟨outcome, row, p', tail, hadvance, houtcome, htail, rfl⟩ := rows_succ_eq_ok_iff.mp h
    obtain ⟨hresult, hanswered, rfl, rfl⟩ := advance_eq_ok_iff.mp hadvance
    obtain ⟨hreplay, hnext⟩ := replay_row_of_over hm hanswered
    rw [hresult] at hreplay
    obtain ⟨hq, hrest⟩ := ih hnext (by omega) htail
    refine ⟨hq, fun last hlast => ?_⟩
    have hallows := allows_of_checkOutcome hexit hcount houtcome
    have hhead := state_eq_of_head? htail hlast
    have htailFollows := hrest last hlast
    cases hr : tail ++ [last] with
    | nil => simp at hr
    | cons next rest =>
      rw [hr] at hhead htailFollows
      rw [List.cons_append, hr]
      exact ⟨⟨outcome, _, hreplay, hallows, by rw [hhead next rfl]; rfl⟩, htailFollows⟩

end Playback

/-! ### The row of the end state -/

theorem Playback.finalRow_eq_ok {params : Params} {exit : ExitCode} {p : Playback} {last : Row}
    (h : p.finalRow params exit = .ok last) :
    (exit.finalFault = none ∧ last = ⟨p.state, none, none, none⟩) ∨
    ∃ reason, exit.finalFault = some reason ∧ (p.step params).result = .error reason ∧
      last = ⟨p.state, (p.step params).bus.fetch, (p.step params).bus.data, none⟩ := by
  unfold finalRow at h
  cases hexit : exit.finalFault with
  | none =>
    rw [hexit] at h
    exact .inl ⟨rfl, (Except.ok.inj h).symm⟩
  | some reason =>
    rw [hexit] at h
    cases hr : (p.step params).result with
    | ok outcome => simp [hr] at h
    | error found =>
      simp only [hr] at h
      split_ifs at h with hfound
      exact .inr ⟨reason, rfl, congrArg Except.error hfound, (Except.ok.inj h).symm⟩

/-- The row of the end state has paths as long as the tree is deep, and an instruction word if it
shows the fault of one. -/
theorem Playback.hasDepth_finalRow {params : Params} {exit : ExitCode} {p : Playback} {last : Row}
    {depth : Nat} (hdepth : p.memory.tree.depth = depth) (h : p.finalRow params exit = .ok last) :
    last.state = p.state ∧ last.HasDepth depth ∧ (exit.finalFault.isSome = true →
      last.fetch.isSome = Machine.canFetch params p.machine.cpu.pc) := by
  obtain ⟨hexit, rfl⟩ | ⟨reason, hexit, -, rfl⟩ := finalRow_eq_ok h
  · exact ⟨rfl, ⟨by simp, by simp⟩, by simp [hexit]⟩
  · obtain ⟨-, hrow⟩ := hasDepth_step params hdepth
    exact ⟨rfl, ⟨hrow.fetch, hrow.data⟩, fun _ => isSome_fetch_step⟩

/-- The row of the end state shows the fault of the exit. Memory matters only when an instruction is
fetched. -/
theorem Playback.faultFollows_finalRow {params : Params} {c : SegmentClaim} {p : Playback}
    {last : Row} (hm : Machine.canFetch params p.machine.cpu.pc = true →
      p.memory.WellFormedOver params)
    (h : p.finalRow params c.exitCode = .ok last) : c.FaultFollows params last := by
  intro reason hreason
  obtain ⟨hexit, -⟩ | ⟨reason', hexit, hresult, rfl⟩ := finalRow_eq_ok h
  · rw [hexit] at hreason
    simp at hreason
  · obtain rfl := Option.some.inj (hexit.symm.trans hreason)
    by_cases hf : Machine.canFetch params p.machine.cpu.pc = true
    · obtain ⟨hreplay, -⟩ := replay_row_of_over (hm hf) (exhausted_step_of_error hresult)
      rw [hresult] at hreplay
      have hhost : (p.step params).bus.host = none := Row.host_eq_none_of_replay hreplay
      rw [row, hhost] at hreplay
      exact ⟨_, hreplay⟩
    · rw [Bool.not_eq_true] at hf
      have hstep : p.step params = ⟨.error (.instructionFault p.machine.cpu.pc), p.machine,
          { memory := p.memory, replies := p.replies }⟩ := Machine.step_of_not_canFetch hf
      rw [hstep] at hresult ⊢
      obtain rfl := Except.error.inj hresult
      exact ⟨_, Row.replay_eq_ok_iff.mpr
        ⟨rfl, rfl, p.machine, false, p.memory.root, .outside hf, rfl, rfl⟩⟩

end ReplayVM
