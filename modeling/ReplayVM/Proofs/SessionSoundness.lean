import ReplayVM.Proofs.JoiningCompleteness
import ReplayVM.Proofs.SegmentSoundness

/-!
# Soundness of composed receipts

A receipt that verifies as a session of a program was made by a tree of joins over receipts of
segments. The leaves form a chain, and the claim of each of them is true of the machine that the
leaves before it leave behind; pauses and splits are passed over. So the machine in the initial
state of the program executes as many instructions as the receipt says and halts as it says, when
the host gives the answers of the leaves in order.

## Main definitions

* `SegmentReceipt.replies`: the answers of the host in a receipt.
* `Program.playback`: the machine at the start of a program.
* `Program.HashedInSession`: the byte strings that are hashed for a session.

## Main results

* `SegmentReceipt.steps_of_chain`: accepted receipts that chain are one run.
* `JoinTree.sound`: what a composed receipt guarantees.
-/

namespace ReplayVM

/-! ### Chains of receipts as runs -/

/-- The answers of the host in a receipt. -/
def SegmentReceipt.replies (r : SegmentReceipt) : List HostReply :=
  match r.decodeSeal with
  | .ok s => s.replies
  | .error _ => []

/-- The number of instructions that some receipts claim. -/
def SegmentReceipt.totalCount (leaves : List SegmentReceipt) : Nat :=
  (leaves.map fun leaf => leaf.claim.instructionCount.toNat).sum

namespace SegmentClaim.TrueOf

variable {c : SegmentClaim} {params : Params} {p q : Playback} {outcomes : List StepOutcome}

/-- A machine does not halt in a segment behind which execution goes on. -/
theorem ne_halted_of_isContinuable (h : c.TrueOf params p outcomes q)
    (hexit : c.exitCode.isContinuable = true) {outcome : StepOutcome} (ho : outcome ∈ outcomes)
    (code : UInt32) : outcome ≠ .halted code := by
  rcases List.eq_nil_or_concat outcomes with rfl | ⟨front, last, rfl⟩
  · simp at ho
  · have hends := h.ends
    have hgoes := h.goes_on
    rw [List.concat_eq_append] at ho hends hgoes
    rw [List.dropLast_concat] at hgoes
    rw [List.getLast?_concat] at hends
    rcases List.mem_append.mp ho with hfront | hlast
    · rw [hgoes _ hfront]
      simp
    · obtain rfl : outcome = last := by simpa using hlast
      cases hc : c.exitCode <;> simp_all [ExitCode.EndsWith, ExitCode.isContinuable]
      rcases hends with rfl | rfl <;> simp

/-- A machine does not halt before the last instruction of a segment. -/
theorem ne_halted_of_mem_dropLast (h : c.TrueOf params p outcomes q) {outcome : StepOutcome}
    (ho : outcome ∈ outcomes.dropLast) (code : UInt32) : outcome ≠ .halted code := by
  rw [h.goes_on _ ho]
  simp

/-- A machine does not halt before the end of a run that goes on behind a segment. -/
theorem ne_halted_of_append (h : c.TrueOf params p outcomes q)
    (hexit : c.exitCode.isContinuable = true) {rest : List StepOutcome}
    (hrest : ∀ outcome ∈ rest.dropLast, ∀ code, outcome ≠ .halted code) :
    ∀ outcome ∈ (outcomes ++ rest).dropLast, ∀ code, outcome ≠ .halted code := by
  intro outcome ho code
  rcases List.eq_nil_or_concat rest with rfl | ⟨front, last, rfl⟩
  · rw [List.append_nil] at ho
    exact h.ne_halted_of_mem_dropLast ho code
  · rw [List.concat_eq_append] at ho hrest
    rw [← List.append_assoc, List.dropLast_concat] at ho
    rw [List.dropLast_concat] at hrest
    rcases List.mem_append.mp ho with ho | ho
    · exact h.ne_halted_of_isContinuable hexit ho code
    · exact hrest outcome ho code

end SegmentClaim.TrueOf

/-- An accepted receipt is a run of the machine in the claimed start state, and the verifier hashes
the state in which it ends. -/
theorem SegmentReceipt.exists_trueOf {hashed : Bytes → Prop} (hfree : CollisionFree hashed)
    {params : Params} {r : SegmentReceipt} (hverify : r.verify = .ok ())
    (hparams : ∀ s, r.decodeSeal = .ok s → s.params = params)
    (hseal : ∀ s, r.decodeSeal = .ok s → ∀ x, r.claim.HashedInSeal s x → hashed x)
    {p : Playback} (hm : p.memory.WellFormedFor params) (hp : hashed p.state.preimage.bytes)
    (hstart : p.state.commitment = r.claim.startCommitment) {rest : List HostReply}
    (hreplies : p.replies = r.replies ++ rest)
    (htrees : ∀ x, p.HashedAlong params r.claim.instructionCount.toNat x → hashed x) :
    ∃ outcomes q, r.claim.TrueOf params p outcomes q ∧ q.replies = rest ∧
      hashed q.state.preimage.bytes := by
  obtain ⟨s, hs, hproven⟩ := verify_eq_ok_iff.mp hverify
  obtain rfl := hparams s hs
  simp only [replies, hs] at hreplies
  obtain ⟨outcomes, q, htrue, hq, row, hrow, hstate⟩ := hproven.trueOf hfree (p := p)
    (fun x hx => hx.elim (fun h => h ▸ hp) fun hx => hx.elim (hseal s hs x) (htrees x)) hm hstart
    hreplies
  exact ⟨outcomes, q, htrue, hq, hseal s hs _ (.inl ⟨row, hrow, by rw [hstate]⟩)⟩

/-- Accepted receipts that chain are one run of the machine in the claimed start state, unless the
byte strings that are hashed collide. -/
theorem SegmentReceipt.steps_of_chain {hashed : Bytes → Prop} (hfree : CollisionFree hashed)
    {params : Params} {first : SegmentReceipt} {leaves : List SegmentReceipt}
    (hchain : (first :: leaves).IsChain fun a b => a.claim.Continues b.claim)
    (hverified : ∀ leaf ∈ first :: leaves, leaf.verify = .ok ())
    (hparams : ∀ leaf ∈ first :: leaves, ∀ s, leaf.decodeSeal = .ok s → s.params = params)
    (hseals : ∀ leaf ∈ first :: leaves, ∀ s, leaf.decodeSeal = .ok s →
      ∀ x, leaf.claim.HashedInSeal s x → hashed x)
    {p : Playback} (hm : p.memory.WellFormedFor params) (hp : hashed p.state.preimage.bytes)
    (hstart : p.state.commitment = first.claim.startCommitment) {rest : List HostReply}
    (hreplies : p.replies = (first :: leaves).flatMap replies ++ rest)
    (htrees : ∀ x, p.HashedAlong params (totalCount (first :: leaves)) x → hashed x) :
    ∃ outcomes q, Steps params p outcomes q ∧ outcomes.length = totalCount (first :: leaves) ∧
      (∀ outcome ∈ outcomes.dropLast, ∀ code, outcome ≠ .halted code) ∧
      (∀ last ∈ (first :: leaves).getLast?, q.state.commitment = last.claim.endCommitment ∧
        q.machine.output.digest = last.claim.outputDigest ∧
        ∀ code, last.claim.exitCode = .halted code → outcomes.getLast? = some (.halted code)) ∧
      q.replies = rest := by
  induction leaves generalizing first p with
  | nil =>
    have hmem := List.mem_singleton_self first
    obtain ⟨outcomes, q, htrue, hq, -⟩ := exists_trueOf hfree (hverified first hmem)
      (hparams first hmem) (hseals first hmem) hm hp hstart (by simpa using hreplies)
      (by simpa [totalCount] using htrees)
    refine ⟨outcomes, q, htrue.steps, by simpa [totalCount] using htrue.length_outcomes,
      fun outcome h => htrue.ne_halted_of_mem_dropLast h, ?_, hq⟩
    intro last h
    obtain rfl : first = last := by simpa using h
    refine ⟨htrue.end_eq, htrue.output_eq, fun code hcode => ?_⟩
    have := htrue.ends
    rwa [hcode] at this
  | cons next leaves ih =>
    rw [List.isChain_cons_cons] at hchain
    have hmem : first ∈ first :: next :: leaves := List.mem_cons_self
    have htotal : totalCount (first :: next :: leaves) =
        first.claim.instructionCount.toNat + totalCount (next :: leaves) := by
      simp [totalCount]
    rw [htotal] at htrees ⊢
    rw [List.flatMap_cons, List.append_assoc] at hreplies
    obtain ⟨outcomes, q, htrue, hq, hqhashed⟩ := exists_trueOf hfree (hverified first hmem)
      (hparams first hmem) (hseals first hmem) hm hp hstart hreplies
      (fun x hx => htrees x (hx.mono (Nat.le_add_right _ _)))
    obtain ⟨outcomes', r, hsteps, hlen, hhalt, hlast, hr⟩ := ih hchain.2
      (fun leaf h => hverified leaf (List.mem_cons_of_mem _ h))
      (fun leaf h => hparams leaf (List.mem_cons_of_mem _ h))
      (fun leaf h => hseals leaf (List.mem_cons_of_mem _ h)) (htrue.steps.wellFormedFor hm) hqhashed
      (htrue.end_eq.trans hchain.1.states_eq) hq
      (fun x hx => htrees x (by
        have := hx.of_steps htrue.steps
        rwa [htrue.length_outcomes] at this))
    refine ⟨outcomes ++ outcomes', r, htrue.steps.append hsteps,
      by rw [List.length_append, htrue.length_outcomes, hlen],
      htrue.ne_halted_of_append hchain.1.continuable hhalt, fun last h => ?_, hr⟩
    rw [List.getLast?_cons_cons] at h
    obtain ⟨hend, houtput, hcode⟩ := hlast last h
    refine ⟨hend, houtput, fun code hexit => ?_⟩
    rw [List.getLast?_append, hcode code hexit]
    rfl

/-! ### Sessions -/

/-- The machine at the start of a program, with the answers that its host will give. -/
def Program.playback (p : Program) (replies : List HostReply) : Playback :=
  ⟨p.initialMachine, p.memory, replies⟩

/-- The byte strings that are hashed when receipts are compared with a session of a program: for the
initial state, for parameters, by the verifier, and in the trees along the session. -/
def Program.HashedInSession (p : Program) (leaves : List SegmentReceipt) : Bytes → Prop := fun x =>
  x = p.initialState.preimage.bytes ∨ x = p.params.preimage.bytes ∨
  (∃ leaf ∈ leaves, ∃ s, leaf.decodeSeal = .ok s ∧
    (x = s.params.preimage.bytes ∨ leaf.claim.HashedInSeal s x)) ∨
  (p.playback (leaves.flatMap SegmentReceipt.replies)).HashedAlong p.params
    (SegmentReceipt.totalCount leaves) x

/-- A program that halts as a receipt states, after as many instructions: the machine does not halt
before, and its host has given the prepared answers at the end. -/
def SuccinctReceipt.HaltsAsStated (r : SuccinctReceipt) (p : Program) (replies : List HostReply)
    (output : Digest) : Prop :=
  ∃ outcomes q code, Steps p.params (p.playback replies) outcomes q ∧
    outcomes.length = r.span.cycles.toNat ∧
    (∀ outcome ∈ outcomes.dropLast, ∀ code, outcome ≠ .halted code) ∧
    outcomes.getLast? = some (.halted code) ∧ r.claim.exit.exitCode = .halted code ∧
    q.state.commitment = r.claim.endCommitment ∧ q.machine.output.digest = output ∧ q.replies = []

/-- A receipt that covers a chain of segments and verifies as a session of a program makes a true
statement about the program, unless the byte strings that are hashed collide. -/
theorem SuccinctReceipt.Covers.haltsAsStated {r : SuccinctReceipt} {leaves : List SegmentReceipt}
    (hcovers : r.Covers leaves) {p : Program} {output : Digest} (hp : p.checkIntegrity = .ok ())
    (hm : p.memory.WellFormed) {ctx : VerifierContext}
    (hverify : r.verifySessionWith ctx p output = true)
    (hfree : CollisionFree (p.HashedInSession leaves)) :
    r.HaltsAsStated p (leaves.flatMap SegmentReceipt.replies) output := by
  obtain ⟨hstart, -, hconfig, houtput, code, hcode⟩ := verifySessionWith_eq_true_iff.mp hverify
  obtain ⟨-, hdigest, ⟨hpage, hbits⟩, hentry⟩ := Program.checkIntegrity_eq_ok_iff.mp hp
  obtain ⟨first, rest, rfl⟩ := List.exists_cons_of_ne_nil hcovers.ne_nil
  obtain ⟨last, hlast⟩ : ∃ last, (first :: rest).getLast? = some last :=
    ⟨_, List.getLast?_eq_some_getLast (List.cons_ne_nil first rest)⟩
  have hparams : ∀ leaf ∈ first :: rest, ∀ s, leaf.decodeSeal = .ok s → s.params = p.params := by
    intro leaf hleaf s hs
    obtain ⟨s', hs', hproven⟩ := SegmentReceipt.verify_eq_ok_iff.mp (hcovers.verified leaf hleaf)
    obtain rfl : s = s' := Except.ok.inj (hs.symm.trans hs')
    refine Params.eq_of_configDigest_eq hfree (.inr (.inr (.inl ⟨leaf, hleaf, s, hs, .inl rfl⟩)))
      (.inr (.inl rfl)) ?_
    rw [hproven.configDigest_eq, hcovers.config_eq leaf hleaf, hconfig, hdigest]
  have hbegin : p.initialState.commitment = first.claim.startCommitment := by
    rw [(hcovers.first_eq first rfl).2, hstart, hentry]
  have hprepared : (p.playback ((first :: rest).flatMap SegmentReceipt.replies)).replies =
      (first :: rest).flatMap SegmentReceipt.replies ++ [] := (List.append_nil _).symm
  obtain ⟨outcomes, q, hsteps, hlen, hhalt, hend, hreplies⟩ := SegmentReceipt.steps_of_chain hfree
    hcovers.chained hcovers.verified hparams
    (fun leaf hleaf s hs x hx => .inr (.inr (.inl ⟨leaf, hleaf, s, hs, .inr hx⟩)))
    (p := p.playback ((first :: rest).flatMap SegmentReceipt.replies)) ⟨hm, hpage, hbits⟩ (.inl rfl)
    hbegin hprepared (fun x hx => .inr (.inr (.inr hx)))
  obtain ⟨hstop, hexit⟩ := hcovers.last_eq last hlast
  obtain ⟨hqstate, hqoutput, hqcode⟩ := hend last hlast
  rw [hexit] at hcode houtput
  refine ⟨outcomes, q, code, hsteps, hlen.trans hcovers.cycles_eq.symm, hhalt, hqcode code hcode,
    ?_, hqstate.trans hstop, hqoutput.trans houtput, hreplies⟩
  rw [hexit]
  exact hcode

/-! ### The guest that halts -/

namespace HaltingGuest

/-- The program of the guest. -/
def program : Program := .make memory minMemory params ⟨"", [], 0⟩

/-- The receipts of the two instructions. -/
def receipts : List SegmentReceipt :=
  [receipt 0 start loaded .systemSplit, receipt 1 loaded halted (.halted 7)]

theorem instructs_of_mem_receipts {r : SegmentReceipt} (h : r ∈ receipts) :
    ∃ index m next outcome exit, Instructs m next outcome exit ∧ r = receipt index m next exit := by
  simp only [receipts, List.mem_cons, List.not_mem_nil, or_false] at h
  rcases h with rfl | rfl
  · exact ⟨_, _, _, _, _, .load, rfl⟩
  · exact ⟨_, _, _, _, _, .halt, rfl⟩

theorem joinable_receipts : SegmentReceipt.Joinable receipts where
  lifted r hr := by
    obtain ⟨index, m, next, outcome, exit, h, rfl⟩ := instructs_of_mem_receipts hr
    exact SegmentReceipt.exists_lift (verify_receipt h) (decodeSeal_receipt index m next exit) rfl
  chained := List.isChain_pair.mpr ⟨Eq.refl _, Eq.refl _, rfl, rfl⟩
  length_lt := by decide

theorem checkIntegrity_program : program.checkIntegrity = .ok () :=
  Program.checkIntegrity_make _ _ validate_params ⟨rfl, rfl⟩

/-- A receipt that covers the two instructions verifies as a session of the program. -/
theorem verifySessionWith_of_covers {r : SuccinctReceipt} (hcovers : r.Covers receipts)
    (hr : r.verifyWith ⟨true⟩ = .ok ()) :
    r.verifySessionWith ⟨true⟩ program halted.output.digest = true := by
  obtain ⟨-, hstart⟩ := hcovers.first_eq _ rfl
  obtain ⟨-, hexit⟩ := hcovers.last_eq _ rfl
  have hconfig := hcovers.config_eq _ List.mem_cons_self
  refine SuccinctReceipt.verifySessionWith_eq_true_iff.mpr
    ⟨hstart.symm, hr, hconfig.symm, ?_, 7, ?_⟩
  · rw [hexit]
    rfl
  · rw [hexit]
    rfl

theorem collisionFree_session : CollisionFree (program.HashedInSession receipts) := by
  refine collisionFree_messages.mono fun x hx => ?_
  have hparams : params.preimage.bytes ∈ messages := List.mem_append_left _
    (List.mem_append_left _ (List.mem_append_left _ List.mem_cons_self))
  rcases hx with rfl | rfl | ⟨r, hr, s, hs, hx⟩ | hx
  · exact mem_messages_of_state (m := start) (by simp)
  · exact hparams
  · obtain ⟨index, m, next, outcome, exit, h, rfl⟩ := instructs_of_mem_receipts hr
    obtain rfl := Except.ok.inj ((decodeSeal_receipt index m next exit).symm.trans hs)
    rcases hx with rfl | hx
    · exact hparams
    · exact mem_messages_of_hashedInSeal h hx
  · exact mem_messages_of_hashedAlong (m := start) (by simp) hx

end HaltingGuest

/-! ### Composed receipts -/

/-- What a composed receipt guarantees. If a tree of joins makes a receipt, the receipt covers the
leaves and states the height of the tree; if it verifies as a session of a program, the program
halts as it states. Reducing a list of lifted receipts makes such a tree. -/
theorem JoinTree.sound :
    (∀ (t : JoinTree) (r : SuccinctReceipt), t.eval = .ok r →
      r.Covers t.leaves ∧ r.depth.toNat = t.height ∧
      ∀ (p : Program) (output : Digest), p.checkIntegrity = .ok () → p.memory.WellFormed →
        r.verifySessionWith ⟨true⟩ p output = true → CollisionFree (p.HashedInSession t.leaves) →
        r.HaltsAsStated p (t.leaves.flatMap SegmentReceipt.replies) output) ∧
    ∀ (strategy : ReductionStrategy) (receipts : List SegmentReceipt) (rs : List SuccinctReceipt)
      (r : SuccinctReceipt), receipts.mapM SegmentReceipt.lift = .ok rs →
      SuccinctReceipt.reduce strategy rs = .ok r →
      ∃ t : JoinTree, t.leaves = receipts ∧ t.eval = .ok r := by
  refine ⟨fun t r heval => ?_, fun _ _ _ _ hlift h => exists_of_lift_reduce hlift h⟩
  have hcovers := covers_of_eval heval
  exact ⟨hcovers, depth_of_eval heval, fun p output hp hm hverify hfree =>
    hcovers.haltsAsStated hp hm hverify hfree⟩

open HaltingGuest in
/-- The receipts of the guest can be joined, as a tree and as a list, and the guest halts. -/
theorem JoinTree.sound_halting :
    (∃ (t : JoinTree) (r : SuccinctReceipt), t.leaves = receipts ∧ t.eval = .ok r ∧
      r.verifySessionWith ⟨true⟩ program halted.output.digest = true ∧
      r.HaltsAsStated program (receipts.flatMap SegmentReceipt.replies) halted.output.digest) ∧
    ∃ rs r, receipts.mapM SegmentReceipt.lift = .ok rs ∧ SuccinctReceipt.reduce .fold rs = .ok r ∧
      ∃ t : JoinTree, t.leaves = receipts ∧ t.eval = .ok r := by
  obtain ⟨hsound, hreduced⟩ := sound
  constructor
  · let t : JoinTree := .node (.leaf (receipt 0 start loaded .systemSplit))
      (.leaf (receipt 1 loaded halted (.halted 7)))
    obtain ⟨r, hr⟩ := exists_eval (t := t) joinable_receipts
    obtain ⟨hcovers, -, hhalts⟩ := hsound t r hr
    obtain ⟨content, hcontent⟩ :=
      SuccinctReceipt.checkIntegrity_eq_ok_iff.mp (checkIntegrity_of_eval hr)
    have hverify := verifySessionWith_of_covers hcovers
      (SuccinctReceipt.verifyWith_of_checkedSeal hcontent)
    exact ⟨t, r, rfl, hr, hverify, hhalts program _ checkIntegrity_program
      wellFormedFor_memory.toWellFormed hverify collisionFree_session⟩
  · obtain ⟨rs, r, hrs, hr⟩ :=
      SegmentReceipt.exists_lift_reduce joinable_receipts (List.cons_ne_nil _ _) .fold
    exact ⟨rs, r, hrs, hr, hreduced .fold receipts rs r hrs hr⟩

end ReplayVM
