import Mathlib.Data.List.Forall2
import Mathlib.Tactic.Common
import ReplayVM.Receipt.Verifier

/-!
# What verification checks

Verification is a sequence of checks that stops at the first one that fails. What it checks all in
all is a conjunction, stated here without the order of the checks and without their errors.

## Main definitions

* `SegmentClaim.RowFollows`, `SegmentClaim.RowsFollow`: rows that lead to each other.
* `SegmentClaim.ProvenBy`: what a seal must satisfy to prove a claim.

## Main results

* `SegmentReceipt.verify_eq_ok_iff`: a receipt is accepted if its seal decodes and proves its claim.
* `Program.checkIntegrity_eq_ok_iff`: the programs that pass.
* `SuccinctReceipt.verifySessionWith_eq_true_iff`: the sessions that are accepted.
-/

namespace ReplayVM

/-! ### Results -/

section Results

variable {ε ε' α β : Type}

theorem bind_eq_ok_iff {x : Except ε α} {f : α → Except ε β} {b : β} :
    x >>= f = .ok b ↔ ∃ a, x = .ok a ∧ f a = .ok b := by
  cases x with
  | error e => simp [bind, Except.bind]
  | ok a => simp [bind, Except.bind]

theorem mapError_eq_ok_iff {x : Except ε α} {f : ε → ε'} {a : α} :
    x.mapError f = .ok a ↔ x = .ok a := by
  cases x with
  | error e => simp [Except.mapError]
  | ok b => simp [Except.mapError]

theorem isOk_eq_true_iff {x : Except ε Unit} : x.isOk = true ↔ x = .ok () := by
  cases x with
  | error e => simp [Except.isOk, Except.toBool]
  | ok u => simp [Except.isOk, Except.toBool]

/-- A list is mapped if every item is. -/
theorem mapM_eq_ok_iff {f : α → Except ε β} {as : List α} {bs : List β} :
    as.mapM f = .ok bs ↔ List.Forall₂ (fun a b => f a = .ok b) as bs := by
  induction as generalizing bs with
  | nil =>
    rw [List.mapM_nil, List.forall₂_nil_left_iff]
    exact ⟨fun h => (Except.ok.inj h).symm, fun h => congrArg Except.ok h.symm⟩
  | cons a as ih =>
    rw [List.mapM_cons, bind_eq_ok_iff]
    constructor
    · rintro ⟨b, hb, h⟩
      obtain ⟨bs', hbs, hpure⟩ := bind_eq_ok_iff.mp h
      obtain rfl := Except.ok.inj hpure
      exact .cons hb (ih.mp hbs)
    · intro h
      cases h with
      | cons hb hbs => exact ⟨_, hb, bind_eq_ok_iff.mpr ⟨_, ih.mpr hbs, rfl⟩⟩

end Results

/-! ### Claims and seals -/

namespace SegmentClaim

variable {c : SegmentClaim} {params : Params}

/-- A row whose replay leads to the next one, with an outcome that the claim allows. -/
def RowFollows (c : SegmentClaim) (params : Params) (index : Nat) (row next : Row) : Prop :=
  ∃ outcome state, row.replay params = .ok (.ok outcome, state) ∧ c.allows index outcome = true ∧
    state.commitment = next.state.commitment

/-- Rows, numbered from an index on, that each lead to the one behind. -/
def RowsFollow (c : SegmentClaim) (params : Params) : (index : Nat) → List Row → Prop
  | index, row :: next :: rows =>
    c.RowFollows params index row next ∧ c.RowsFollow params (index + 1) (next :: rows)
  | _, _ => True

/-- A last row that gives the fault of an instruction that the claim ends in. -/
def FaultFollows (c : SegmentClaim) (params : Params) (last : Row) : Prop :=
  ∀ reason, c.exitCode.finalFault = some reason →
    ∃ state, last.replay params = .ok (.error reason, state)

/-- A seal that proves a claim. -/
structure ProvenBy (c : SegmentClaim) (s : SegmentSeal) : Prop where
  params_valid : s.params.validate = .ok ()
  configDigest_eq : s.params.configDigest = c.configDigest
  count_le : c.instructionCount.toNat ≤ s.params.maxSegmentCycles
  length_rows : s.rows.length = c.instructionCount.toNat + 1
  count_ne_zero : c.exitCode.needsInstruction = true → c.instructionCount ≠ 0
  traceRoot_eq : traceRoot (s.rows.map Row.digest) = s.traceRoot
  start_eq : ∀ first ∈ s.rows.head?, first.state.commitment = c.startCommitment
  end_eq : ∀ last ∈ s.rows.getLast?, last.state.commitment = c.endCommitment
  output_eq : ∀ last ∈ s.rows.getLast?, last.state.outputDigest = c.outputDigest
  rows_follow : c.RowsFollow s.params 0 s.rows
  fault_follows : ∀ last ∈ s.rows.getLast?, c.FaultFollows s.params last

theorem checkRow_eq_ok_iff {index : Nat} {row next : Row} :
    c.checkRow params index row next = .ok () ↔ c.RowFollows params index row next := by
  rw [checkRow, bind_eq_ok_iff, Row.replayAt, RowFollows]
  simp only [mapError_eq_ok_iff]
  constructor
  · rintro ⟨⟨result, state⟩, hreplay, h⟩
    cases result with
    | error reason => simp [throw, throwThe, MonadExceptOf.throw] at h
    | ok outcome =>
      simp only [throw, throwThe, MonadExceptOf.throw, pure, Except.pure, bind, Except.bind] at h
      split_ifs at h with hallows hstate
      exact ⟨outcome, state, hreplay, by simpa using hallows, not_not.mp hstate⟩
  · rintro ⟨outcome, state, hreplay, hallows, hstate⟩
    exact ⟨_, hreplay, by simp [hallows, hstate, pure, Except.pure]⟩

theorem checkRows_eq_ok_iff {index : Nat} {rows : List Row} :
    c.checkRows params index rows = .ok () ↔ c.RowsFollow params index rows := by
  induction rows generalizing index with
  | nil => exact iff_of_true rfl trivial
  | cons row rows ih =>
    cases rows with
    | nil => exact iff_of_true rfl trivial
    | cons next rows =>
      rw [checkRows, bind_eq_ok_iff, RowsFollow, ← ih, ← checkRow_eq_ok_iff]
      exact ⟨fun ⟨_, h⟩ => h, fun h => ⟨(), h⟩⟩

theorem checkFault_eq_ok_iff {last : Row} :
    c.checkFault params last = .ok () ↔ c.FaultFollows params last := by
  unfold checkFault FaultFollows
  cases c.exitCode.finalFault with
  | none => simp
  | some reason =>
    simp only [bind_eq_ok_iff, Row.replayAt, mapError_eq_ok_iff, Option.some.injEq]
    constructor
    · rintro ⟨⟨result, state⟩, hreplay, h⟩ reason' rfl
      cases result with
      | error found =>
        simp only [throw, throwThe, MonadExceptOf.throw, pure, Except.pure] at h
        split_ifs at h with hfound
        exact ⟨state, hfound ▸ hreplay⟩
      | ok outcome => simp [throw, throwThe, MonadExceptOf.throw] at h
    · intro h
      obtain ⟨state, hreplay⟩ := h reason rfl
      exact ⟨_, hreplay, by simp [pure, Except.pure]⟩

theorem checkBoundary_eq_ok_iff {first last : Row} :
    c.checkBoundary first last = .ok () ↔ first.state.commitment = c.startCommitment ∧
      last.state.commitment = c.endCommitment ∧ last.state.outputDigest = c.outputDigest := by
  unfold checkBoundary
  split_ifs <;> simp_all

theorem checkShape_eq_ok_iff {s : SegmentSeal} :
    c.checkShape s = .ok () ↔
      (s.params.validate = .ok () ∧ s.params.configDigest = c.configDigest) ∧
      (c.instructionCount.toNat ≤ s.params.maxSegmentCycles ∧
        s.rows.length = c.instructionCount.toNat + 1) ∧
      (c.exitCode.needsInstruction = true → c.instructionCount ≠ 0) ∧
      traceRoot (s.rows.map Row.digest) = s.traceRoot := by
  rw [← isOk_eq_true_iff (x := s.params.validate)]
  constructor
  · intro h
    unfold checkShape at h
    split_ifs at h with hparams hcount hneeds hroot
    simp only [Bool.or_eq_true, Bool.not_eq_true', decide_eq_true_eq, not_or, not_not,
      Bool.not_eq_false] at hparams
    rw [not_or] at hcount
    exact ⟨hparams, ⟨Nat.le_of_not_lt hcount.1,
      not_not.mp hcount.2⟩, fun h hzero => hneeds ⟨hzero, h⟩, not_not.mp hroot⟩
  · rintro ⟨⟨hvalid, hconfig⟩, ⟨hcount, hlength⟩, hneeds, hroot⟩
    unfold checkShape
    rw [if_neg (by simp [hvalid, hconfig]), if_neg (by omega), if_neg (fun h => hneeds h.2 h.1),
      if_neg (not_not.mpr hroot)]

theorem checkTrace_eq_ok_iff {first last : Row} {rows : List Row} (hfirst : rows.head? = some first)
    (hlast : rows.getLast? = some last) :
    c.checkTrace params rows = .ok () ↔
      (first.state.commitment = c.startCommitment ∧ last.state.commitment = c.endCommitment ∧
        last.state.outputDigest = c.outputDigest) ∧
      c.RowsFollow params 0 rows ∧ c.FaultFollows params last := by
  rw [← checkBoundary_eq_ok_iff, ← checkRows_eq_ok_iff, ← checkFault_eq_ok_iff]
  simp only [checkTrace, hfirst, hlast, bind_eq_ok_iff]
  exact ⟨fun ⟨_, hb, _, hr, hf⟩ => ⟨hb, hr, hf⟩, fun ⟨hb, hr, hf⟩ => ⟨_, hb, _, hr, hf⟩⟩

/-- The checks of a seal, all in all. -/
theorem checkSeal_eq_ok_iff {s : SegmentSeal} : c.checkSeal s = .ok () ↔ c.ProvenBy s := by
  rw [checkSeal, bind_eq_ok_iff]
  constructor
  · rintro ⟨⟨⟩, hshape, htrace⟩
    obtain ⟨⟨hvalid, hconfig⟩, ⟨hcount, hlength⟩, hneeds, hroot⟩ := checkShape_eq_ok_iff.mp hshape
    have hne : s.rows ≠ [] := List.ne_nil_of_length_eq_add_one hlength
    have hfirst := List.head?_eq_some_head hne
    have hlast := List.getLast?_eq_some_getLast hne
    obtain ⟨⟨hstart, hend, houtput⟩, hrows, hfault⟩ :=
      (checkTrace_eq_ok_iff hfirst hlast).mp htrace
    refine ⟨hvalid, hconfig, hcount, hlength, hneeds, hroot, fun first h => ?_, fun last h => ?_,
      fun last h => ?_, hrows, fun last h => ?_⟩
    · obtain rfl := Option.some.inj (hfirst.symm.trans h)
      exact hstart
    · obtain rfl := Option.some.inj (hlast.symm.trans h)
      exact hend
    · obtain rfl := Option.some.inj (hlast.symm.trans h)
      exact houtput
    · obtain rfl := Option.some.inj (hlast.symm.trans h)
      exact hfault
  · intro h
    have hne : s.rows ≠ [] := List.ne_nil_of_length_eq_add_one h.length_rows
    have hfirst := List.head?_eq_some_head hne
    have hlast := List.getLast?_eq_some_getLast hne
    refine ⟨(), checkShape_eq_ok_iff.mpr ?_, (checkTrace_eq_ok_iff hfirst hlast).mpr ?_⟩
    · exact ⟨⟨h.params_valid, h.configDigest_eq⟩, ⟨h.count_le, h.length_rows⟩, h.count_ne_zero,
        h.traceRoot_eq⟩
    · exact ⟨⟨h.start_eq _ hfirst, h.end_eq _ hlast, h.output_eq _ hlast⟩, h.rows_follow,
        h.fault_follows _ hlast⟩

end SegmentClaim

/-! ### Receipts -/

namespace SegmentReceipt

/-- A receipt is accepted if its seal decodes and proves its claim. -/
theorem verify_eq_ok_iff {r : SegmentReceipt} :
    r.verify = .ok () ↔ ∃ s, r.decodeSeal = .ok s ∧ r.claim.ProvenBy s := by
  simp only [verify, bind_eq_ok_iff, openSeal, mapError_eq_ok_iff,
    SegmentClaim.checkSeal_eq_ok_iff]

end SegmentReceipt

/-! ### Programs and sessions -/

/-- A program passes if its parameters are in range, its memory is laid out under them, and its
digests are its own. -/
theorem Program.checkIntegrity_eq_ok_iff {p : Program} :
    p.checkIntegrity = .ok () ↔ p.params.validate = .ok () ∧
      p.configDigest = p.params.configDigest ∧
      (p.memory.pageSize = p.params.pageSize ∧ p.memory.memoryBits = p.params.memoryBits) ∧
      p.entryState = p.initialState.commitment := by
  unfold checkIntegrity
  cases p.params.validate with
  | error cause => simp
  | ok u =>
    simp only [true_and]
    split_ifs with hconfig hlayout hentry
    · simp [hconfig]
    · rw [← not_and_or] at hlayout
      simp [hlayout]
    · simp [hentry]
    · rw [← not_and_or, not_not] at hlayout
      simp [not_not.mp hconfig, hlayout, not_not.mp hentry]

/-- A program that is made passes if its parameters are in range and its memory is laid out under
them. -/
theorem Program.checkIntegrity_make {memory : Memory} {params : Params} (entry : UInt32)
    (info : ProgramInfo) (hvalid : params.validate = .ok ())
    (hlayout : memory.pageSize = params.pageSize ∧ memory.memoryBits = params.memoryBits) :
    (make memory entry params info).checkIntegrity = .ok () :=
  checkIntegrity_eq_ok_iff.mpr ⟨hvalid, Eq.refl params.configDigest, hlayout, Eq.refl _⟩

namespace SuccinctReceipt

theorem isHalted_eq_true_iff {exit : ExitCode} :
    isHalted exit = true ↔ ∃ code, exit = .halted code := by
  cases exit <;> simp [isHalted]

/-- A session is accepted if its receipt is, starts where the program starts, and ends in a halt
with the given journal. -/
theorem verifySessionWith_eq_true_iff {ctx : VerifierContext} {r : SuccinctReceipt} {p : Program}
    {output : Digest} : r.verifySessionWith ctx p output = true ↔
      r.claim.startCommitment = p.entryState ∧ r.verifyWith ctx = .ok () ∧
      r.claim.configDigest = p.configDigest ∧ r.claim.exit.outputDigest = output ∧
      ∃ code, r.claim.exit.exitCode = .halted code := by
  simp only [verifySessionWith, accepts, Bool.and_eq_true, decide_eq_true_eq, isOk_eq_true_iff,
    isHalted_eq_true_iff, and_assoc]

end SuccinctReceipt

end ReplayVM
