import ReplayVM.Proofs.ProvingSoundness
import ReplayVM.Proofs.Runs
import ReplayVM.Proofs.SealTampering
import ReplayVM.Proofs.SessionCompleteness

/-!
# The sizes of seals

Before a segment is proven, the space for its rows is estimated from the depth of the memory tree.
The parts of a row have fixed sizes but for the paths, which are as long as the tree of the snapshot
is deep; a row leaves some of its estimate over, and the row of the end state, which has no data and
no answer of the host, leaves enough for what stands in front of the rows. So the seal fits the
estimate as soon as the tree of the snapshot is no deeper than the parameters say.

A program that is put together from a memory and parameters that do not belong together can have a
deeper tree. It does not pass its check, but it can be executed, and its seals can be longer.

## Main definitions

* `Format.HasSize`: a format that takes the same number of bytes for every value.
* `Segment.EstimateCovers`: a segment whose estimate covers the seals that it is proven with.

## Main results

* `Row.length_encode`: the number of bytes of a row.
* `Segment.estimateCovers_of_depth_le`: the estimate covers the seals of a segment whose snapshot
  is not too deep.
* `Session.estimates_cover`: it does so for every segment of a session.
* `Session.estimate_exceeded`: a program that does not pass its check, with too long a seal.
-/

namespace ReplayVM

/-! ### Sizes of encodings -/

namespace Format

variable {α β : Type} {f : Format α} {g : Format β} {m n : Nat}

/-- Every value takes the same number of bytes. -/
def HasSize (f : Format α) (size : Nat) : Prop := ∀ a, (f.encode a).length = size

theorem hasSize_uint32 : uint32.HasSize 4 := Bytes.length_ofWord

theorem hasSize_digest : Digest.format.HasSize 32 := Digest.length_encode

theorem length_pair (a : α) (b : β) :
    ((f.pair g).encode (a, b)).length = (f.encode a).length + (g.encode b).length :=
  List.length_append

theorem HasSize.pair (hf : f.HasSize m) (hg : g.HasSize n) : (f.pair g).HasSize (m + n) :=
  fun (a, b) => by rw [length_pair, hf, hg]

theorem HasSize.iso (hf : f.HasSize m) (decode : α → β) (encode : β → α) :
    (f.iso decode encode).HasSize m :=
  fun b => hf (encode b)

/-- Values in a row take the sum of their bytes. -/
theorem length_flatMap_encode (as : List α) :
    (as.flatMap f.write).length = (as.map fun a => (f.encode a).length).sum :=
  List.length_flatMap

theorem HasSize.length_flatMap (hf : f.HasSize m) (as : List α) :
    (as.flatMap f.write).length = as.length * m := by
  induction as with
  | nil => simp
  | cons a as ih =>
    have ha : (f.write a).length = m := hf a
    rw [List.flatMap_cons, List.length_append, ih, ha, List.length_cons, Nat.succ_mul, Nat.add_comm]

theorem HasSize.vector (hf : f.HasSize m) (n : Nat) : (f.vector n).HasSize (n * m) :=
  fun as => (hf.length_flatMap as.toList).trans (by rw [Vector.length_toList])

theorem length_list (as : List α) :
    ((list f).encode as).length = 8 + (as.map fun a => (f.encode a).length).sum := by
  have hcount : (count.write as.length).length = 8 := Bytes.length_le _ _
  rw [← length_flatMap_encode, ← hcount]
  exact List.length_append

theorem HasSize.length_list (hf : f.HasSize m) (as : List α) :
    ((list f).encode as).length = 8 + as.length * m := by
  rw [Format.length_list, ← length_flatMap_encode, hf.length_flatMap]

/-- A value that may be missing takes one byte more, and one byte when it is missing. -/
theorem length_option (o : Option α) :
    ((option f).encode o).length = 1 + (o.map fun a => (f.encode a).length).getD 0 := by
  cases o with
  | none => rfl
  | some a => exact (List.length_cons).trans (Nat.add_comm _ _)

end Format

open Format

theorem Params.length_encode (p : Params) : (format.encode p).length = 20 :=
  ((hasSize_uint32.pair (hasSize_uint32.pair (hasSize_uint32.pair
    (hasSize_uint32.pair hasSize_uint32)))).iso _ _) p

theorem SystemState.length_encode (s : SystemState) : (format.encode s).length = Row.stateSize :=
  ((hasSize_uint32.pair ((hasSize_uint32.vector 32).pair (hasSize_digest.pair
    (hasSize_uint32.pair hasSize_digest)))).iso _ _) s

theorem HostReply.length_encode (r : HostReply) : (format.encode r).length = 8 :=
  ((hasSize_uint32.pair hasSize_uint32).iso _ _) r

theorem MerklePath.length_encode (p : MerklePath) :
    (format.encode p).length = 8 + p.siblings.length * 32 :=
  hasSize_digest.length_list p.siblings

theorem FetchWitness.length_encode (f : FetchWitness) :
    (format.encode f).length = 16 + f.path.siblings.length * 32 := by
  refine (length_pair f.addr (f.value, f.path)).trans ?_
  rw [length_pair, hasSize_uint32, hasSize_uint32, MerklePath.length_encode]
  omega

theorem DataWitness.length_encode (d : DataWitness) :
    (format.encode d).length = 20 + d.path.siblings.length * 32 := by
  refine (length_pair d.addr (d.old, d.new, d.path)).trans ?_
  rw [length_pair, length_pair, hasSize_uint32, hasSize_uint32, hasSize_uint32,
    MerklePath.length_encode]
  omega

/-! ### Rows and seals -/

namespace Row

variable {r : Row} {depth depth' : Nat}

/-- The number of bytes of a row: its state, three tags, and what the tags announce. -/
theorem length_encode (r : Row) : (format.encode r).length =
    stateSize + (1 + (r.fetch.map fun f => 16 + f.path.siblings.length * 32).getD 0) +
      (1 + (r.data.map fun d => 20 + d.path.siblings.length * 32).getD 0) +
      (1 + (r.host.map fun _ => 8).getD 0) := by
  refine (length_pair r.state (r.fetch, r.data, r.host)).trans ?_
  rw [length_pair, length_pair, length_option, length_option, length_option,
    SystemState.length_encode]
  simp only [FetchWitness.length_encode, DataWitness.length_encode, HostReply.length_encode,
    Nat.add_assoc]

theorem sizeEstimate_eq (depth : Nat) : sizeEstimate depth = 296 + 64 * depth := by
  unfold sizeEstimate stateSize
  omega

theorem sizeEstimate_le (h : depth ≤ depth') : sizeEstimate depth ≤ sizeEstimate depth' := by
  rw [sizeEstimate_eq, sizeEstimate_eq]
  omega

theorem HasDepth.getD_fetch_le (h : r.HasDepth depth) :
    (r.fetch.map fun f => 16 + f.path.siblings.length * 32).getD 0 ≤ 16 + depth * 32 := by
  cases hf : r.fetch with
  | none => exact Nat.zero_le _
  | some f => rw [Option.map_some, Option.getD_some, h.fetch f hf]

theorem HasDepth.getD_data_le (h : r.HasDepth depth) :
    (r.data.map fun d => 20 + d.path.siblings.length * 32).getD 0 ≤ 20 + depth * 32 := by
  cases hd : r.data with
  | none => exact Nat.zero_le _
  | some d => rw [Option.map_some, Option.getD_some, h.data d hd]

/-- A row fits its estimate. -/
theorem HasDepth.length_encode_le (h : r.HasDepth depth) :
    (format.encode r).length ≤ sizeEstimate depth := by
  have hfetch := h.getD_fetch_le
  have hdata := h.getD_data_le
  have hhost : (r.host.map fun _ => 8).getD 0 ≤ 8 := by cases r.host <;> simp
  rw [length_encode, sizeEstimate_eq, stateSize]
  omega

/-- A row without data and without an answer of the host leaves room in its estimate. -/
theorem HasDepth.length_encode_add_le (h : r.HasDepth depth) (hdata : r.data = none)
    (hhost : r.host = none) : 60 + (format.encode r).length ≤ sizeEstimate depth := by
  have hfetch := h.getD_fetch_le
  rw [length_encode, hdata, hhost, sizeEstimate_eq, stateSize, Option.map_none, Option.getD_none,
    Option.map_none, Option.getD_none]
  omega

/-- Rows in a row fit their estimates. -/
theorem sum_length_encode_le {rows : List Row} (h : ∀ row ∈ rows, row.HasDepth depth) :
    (rows.map fun row => (format.encode row).length).sum ≤ rows.length * sizeEstimate depth := by
  induction rows with
  | nil => simp
  | cons row rows ih =>
    have hrow := (h row List.mem_cons_self).length_encode_le
    have hrest := ih fun row hrow => h row (List.mem_cons_of_mem _ hrow)
    rw [List.map_cons, List.sum_cons, List.length_cons, Nat.succ_mul]
    omega

end Row

/-- In front of the rows of a seal stand the parameters, the root and the number of rows. -/
theorem SegmentSeal.length_encode (s : SegmentSeal) : (format.encode s).length =
    60 + (s.rows.map fun row => (Row.format.encode row).length).sum := by
  rw [encode_eq, List.length_append, List.length_append, Params.length_encode, Digest.length_encode,
    Format.length_list]
  omega

/-! ### Segments -/

/-- A step that faults has loaded nothing. -/
theorem Playback.data_step_of_error {params : Params} {p : Playback} {reason : FaultReason}
    (h : (p.step params).result = .error reason) : (p.step params).bus.data = none := by
  obtain ⟨-, hs⟩ | ⟨-, ⟨reason', hs⟩ | ⟨effect, hs⟩⟩ := step_cases params p
  · rw [hs]
  · rw [hs]
    rfl
  · obtain ⟨outcome, ho⟩ := effect.run_result Recorder.bus p.fetched
    rw [hs, ho] at h
    simp at h

/-- The row of the end state has no data and no answer of the host. -/
theorem Playback.data_finalRow {params : Params} {exit : ExitCode} {p : Playback} {last : Row}
    (h : p.finalRow params exit = .ok last) : last.data = none ∧ last.host = none := by
  obtain ⟨-, rfl⟩ | ⟨reason, -, hresult, rfl⟩ := finalRow_eq_ok h
  · exact ⟨rfl, rfl⟩
  · exact ⟨data_step_of_error hresult, rfl⟩

namespace Segment

variable {s : Segment} {front : List Row} {last : Row} {p : Playback}

/-- The seal of a segment takes no more bytes than so many rows of the depth of its snapshot. -/
theorem Witnessed.length_encode_sealOf_le (h : s.Witnessed front last p) :
    (SegmentSeal.format.encode (s.sealOf (front ++ [last]))).length ≤
      (s.instructionCount.toNat + 1) * Row.sizeEstimate s.trace.startMemory.tree.depth := by
  obtain ⟨hlength, hdepth⟩ := h.hasDepth
  obtain ⟨hdata, hhost⟩ := Playback.data_finalRow h.finalRow_eq
  have hfront := Row.sum_length_encode_le fun row hrow =>
    hdepth row (List.mem_append_left [last] hrow)
  have hlast := (hdepth last (by simp)).length_encode_add_le hdata hhost
  rw [hlength] at hfront
  rw [SegmentSeal.length_encode, sealOf, List.map_append, List.sum_append, List.map_singleton,
    List.sum_singleton, Nat.succ_mul]
  omega

/-- The estimate of a segment covers every seal that it is proven with: the rows of the estimate
take the seal, and twice the seal and the snapshot are within the whole. -/
structure EstimateCovers (s : Segment) : Prop where
  length_le : ∀ budget cancelled r, s.prove budget cancelled = .ok r →
    r.sealBytes.length ≤ (s.instructionCount.toNat + 1) * Row.sizeEstimate s.params.merkleDepth
  estimate_ge : ∀ budget cancelled r, s.prove budget cancelled = .ok r →
    ∃ estimate, s.witnessEstimate = some estimate ∧
      2 * r.sealBytes.length + s.trace.residentBytes ≤ estimate.toNat

/-- The estimate covers the seals of a segment whose snapshot is no deeper than the parameters
say. -/
theorem estimateCovers_of_depth_le (h : s.trace.startMemory.tree.depth ≤ s.params.merkleDepth) :
    s.EstimateCovers := by
  have hlength {budget cancelled r} (hr : s.prove budget cancelled = .ok r) : r.sealBytes.length ≤
      (s.instructionCount.toNat + 1) * Row.sizeEstimate s.params.merkleDepth := by
    obtain ⟨-, -, rows, hwitness, rfl⟩ := prove_eq_ok_iff.mp hr
    obtain ⟨front, last, p, hrecorded, rfl⟩ := witness_eq_ok_iff.mp hwitness
    exact Nat.le_trans hrecorded.length_encode_sealOf_le
      (Nat.mul_le_mul_left _ (Row.sizeEstimate_le h))
  refine ⟨fun _ _ _ => hlength, fun _ _ _ hr => ?_⟩
  obtain ⟨-, hadmission, -⟩ := prove_eq_ok_iff.mp hr
  obtain ⟨-, -, estimate, hestimate, -⟩ := checkAdmission_eq_ok_iff.mp hadmission
  have hle := hlength hr
  refine ⟨estimate, hestimate, ?_⟩
  rw [(witnessEstimate_eq_some_iff.mp hestimate).2, Nat.mul_assoc]
  omega

end Segment

/-! ### Runs -/

namespace Live

variable {s t : Live} {limits : RunLimits} {index : UInt32} {e : RunEnd}

/-- An instruction keeps the depth of the tree. -/
theorem depth_step {outcome : StepOutcome} (h : s.step = (.ok outcome, t)) :
    t.world.memory.tree.depth = s.world.memory.tree.depth := by
  obtain ⟨-, rfl⟩ := step_of_ok h
  obtain ⟨new, -, -, -, hrecord⟩ := Playback.step_of_world s.params s.machine s.world
  rw [← (hrecord []).2.2.1]
  exact (Playback.hasDepth_step s.params (p := s.playback (new ++ [])) rfl).1

theorem Stretch.depth_eq {exit : ExitCode} {count : Nat} (h : s.Stretch exit count t) :
    t.world.memory.tree.depth = s.world.memory.tree.depth := by
  induction h with
  | split s => rfl
  | limit s => rfl
  | fault h => rw [(step_of_error h).2]
  | last h _ _ => exact depth_step h
  | next h _ ih => rw [ih, depth_step h]

/-- What a running machine says of the segment that starts with it holds of all segments of a run,
where segments lead from such machines to such machines. -/
theorem Runs.forall_segments {P : Live → Prop} {Q : Segment → Prop}
    (hstep : ∀ index s, P s →
      Q (s.segment index (s.segmentEnd limits)) ∧ P (s.segmentEnd limits).live)
    (h : Runs limits index s e) (hs : P s) : (∀ x ∈ e.segments, Q x) ∧ P e.live := by
  induction h with
  | @last index s h =>
    obtain ⟨hsegment, hend⟩ := hstep index s hs
    exact ⟨by simpa using hsegment, hend⟩
  | @split index s e h rest ih =>
    obtain ⟨hsegment, hnext⟩ := hstep index s hs
    obtain ⟨hrest, hend⟩ := ih hnext
    refine ⟨fun x hx => ?_, hend⟩
    rcases List.mem_cons.mp hx with rfl | hx
    · exact hsegment
    · exact hrest x hx

/-- The estimates cover the seals of a run from a memory that is no deeper than the parameters
say. -/
theorem estimateCovers_run (limits : RunLimits) (index : UInt32)
    (h : s.world.memory.tree.depth ≤ s.params.merkleDepth) :
    ∀ x ∈ (s.run limits index).segments, x.EstimateCovers := by
  refine ((runs_run limits index s).forall_segments
    (P := fun s => s.world.memory.tree.depth ≤ s.params.merkleDepth) ?_ h).1
  intro index s h
  obtain ⟨-, hstretch⟩ := stretch_segmentEnd limits s
  refine ⟨Segment.estimateCovers_of_depth_le h, ?_⟩
  rw [hstretch.depth_eq, hstretch.params_eq]
  exact h

end Live

/-! ### Sessions -/

/-- A segment whose estimate covers its seals, can be counted, and that is proven with all the space
there is. -/
def Segment.ProvenWithin (s : Segment) : Prop :=
  s.EstimateCovers ∧ (∃ estimate, s.witnessEstimate = some estimate) ∧ ∃ r, s.proveFully = .ok r

/-- The segments of a run of a sound machine are proven within their estimates. -/
theorem Live.Sound.provenWithin_run {s : Live} (h : s.Sound) {limits : RunLimits}
    (hlimit : limits.segmentLimit ≤ s.params.maxSegmentCycles) (index : UInt32) :
    (∀ x ∈ (s.run limits index).segments, x.ProvenWithin) ∧ (s.run limits index).live.Sound ∧
      (s.run limits index).live.params = s.params := by
  refine (runs_run limits index s).forall_segments
    (P := fun t => t.Sound ∧ t.params = s.params) ?_ ⟨h, rfl⟩
  rintro index t ⟨ht, hparams⟩
  rw [← hparams] at hlimit ⊢
  obtain ⟨hend, hendParams⟩ := ht.segmentEnd limits
  obtain ⟨rows, hrows⟩ : ∃ rows, (t.segment index (t.segmentEnd limits)).ProvenWith rows :=
    exists_provenWith ht.params_valid ht.memory hlimit
  have hdepth : t.world.memory.tree.depth ≤ t.params.merkleDepth := by
    rw [ht.memory.toWellFormed.depth_eq, Memory.treeDepth, ht.memory.memoryBits_eq]
    exact Nat.le_refl _
  exact ⟨⟨Segment.estimateCovers_of_depth_le hdepth,
    exists_witnessEstimate_segment ht.params_valid ht.memory hlimit, _, hrows.proveFully_eq⟩,
    hend, hendParams⟩

/-- The segments of sessions in a row are proven within their estimates. -/
theorem Program.Sessions.provenWithin {p : Program} (hp : p.checkIntegrity = .ok ())
    (hm : p.memory.WellFormed) {earlier : List Session} {last : Session}
    (h : p.Sessions earlier last) :
    (∀ x ∈ Session.allSegments (earlier ++ [last]), x.ProvenWithin) ∧
      ∃ e, last = .ofRun e ∧ e.live.Sound := by
  induction h with
  | @execute input options x h =>
    obtain ⟨limits, hlimits, rfl⟩ := execute_eq_ok_iff.mp h
    obtain ⟨hsegments, hsound, -⟩ := (p.sound_live hp hm input).provenWithin_run
      (ExecutionOptions.segmentLimit_le hlimits) 0
    exact ⟨by simpa [Session.allSegments, Session.ofRun] using hsegments, _, rfl, hsound⟩
  | @resume earlier x y c input options rest hc h ih =>
    obtain ⟨hearlier, e, rfl, hsound⟩ := ih
    obtain ⟨limits, hlimits, rfl⟩ := Continuation.resume_eq_ok_iff.mp h
    obtain ⟨-, rfl⟩ := Session.continuation_ofRun hc
    obtain ⟨hsegments, hstop, -⟩ := (hsound.live_continuation e.nextIndex input).provenWithin_run
      (ExecutionOptions.segmentLimit_le hlimits) e.nextIndex
    refine ⟨fun s hs => ?_, _, rfl, hstop⟩
    rw [Session.allSegments, List.flatMap_append, List.mem_append] at hs
    rcases hs with hs | hs
    · exact hearlier s hs
    · exact hsegments s (by simpa [Session.ofRun] using hs)

/-- A memory over no more address space than that of parameters has a tree that is no deeper than
they say. -/
theorem Memory.WellFormed.depth_le {m : Memory} (h : m.WellFormed) {params : Params}
    (hbits : m.memoryBits ≤ params.memoryBits) : m.tree.depth ≤ params.merkleDepth := by
  have hmemory : 2 ≤ m.memoryBits :=
    UInt32.le_iff_toNat_le.mpr (Nat.le_trans (by decide) h.memoryBits_ge)
  rw [h.depth_eq, h.treeDepth_eq, Params.merkleDepth_eq (UInt32.le_trans hmemory hbits)]
  exact Nat.sub_le_sub_right (UInt32.le_iff_toNat_le.mp hbits) 2

/-- **Estimates cover seals.** The estimate of every segment of a session covers the seals that the
segment is proven with, as long as the session starts from a memory over no more address space than
that of its parameters. Programs that pass their check start from such memories; every segment of
their sessions is proven, with an estimate that can be counted. -/
theorem Session.estimates_cover :
    (∀ (p : Program) input options x, p.memory.WellFormed →
      p.memory.memoryBits ≤ p.params.memoryBits → p.execute input options = .ok x →
      ∀ s ∈ x.segments, s.EstimateCovers) ∧
    (∀ (c : Continuation) input options x, c.memory.WellFormed →
      c.memory.memoryBits ≤ c.params.memoryBits → c.resume input options = .ok x →
      ∀ s ∈ x.segments, s.EstimateCovers) ∧
    ∀ (p : Program) earlier last, p.checkIntegrity = .ok () → p.memory.WellFormed →
      p.Sessions earlier last → ∀ s ∈ allSegments (earlier ++ [last]), s.ProvenWithin := by
  refine ⟨fun p input options x hm hbits h => ?_, fun c input options x hm hbits h => ?_,
    fun p earlier last hp hm h => (h.provenWithin hp hm).1⟩
  · obtain ⟨limits, -, rfl⟩ := Program.execute_eq_ok_iff.mp h
    exact Live.estimateCovers_run limits 0 (s := p.live input) (hm.depth_le hbits)
  · obtain ⟨limits, -, rfl⟩ := Continuation.resume_eq_ok_iff.mp h
    exact Live.estimateCovers_run limits c.nextSegmentIndex (s := c.live input) (hm.depth_le hbits)

/-! ### A guest that loads, stores and asks the host -/

/-- Words stored at word addresses keep a memory well formed. -/
theorem Memory.WellFormed.foldl_storeWord {α : Type} (addr word : α → UInt32) {as : List α}
    {m : Memory} (hm : m.WellFormed) (has : ∀ a ∈ as, m.IsWordAddr (addr a)) :
    (as.foldl (fun m a => m.storeWord (addr a) (word a)) m).WellFormed := by
  induction as generalizing m with
  | nil => exact hm
  | cons a as ih =>
    obtain ⟨ha, has⟩ := List.forall_mem_cons.mp has
    exact ih (hm.storeWord ha _) fun b hb => ⟨(has b hb).aligned, (has b hb).inside⟩

namespace BusyGuest

theorem checkIntegrity_program : program.checkIntegrity = .ok () :=
  Program.checkIntegrity_make _ _ (Params.validate_eq_ok_iff.mpr (by decide)) ⟨rfl, rfl⟩

theorem wellFormed_memory : memory.WellFormed := by
  refine (Memory.wellFormed_empty (Params.validate_eq_ok_iff.mpr (by decide))).foldl_storeWord
    (fun a : UInt32 × Nat => minMemory + 4 * a.2.toUInt32) Prod.fst ?_
  have haddr : ∀ a ∈ code.zipIdx, (minMemory + 4 * a.2.toUInt32).toNat % 4 = 0 ∧
      (minMemory + 4 * a.2.toUInt32).toNat < 1 <<< 24 := by decide
  exact fun a ha => ⟨(haddr a ha).1, (haddr a ha).2⟩

end BusyGuest

open BusyGuest in
/-- All seals of the guest are within their estimates, those of segments that load, store and ask
the host as well as those of single instructions. -/
theorem Session.estimates_cover_busy :
    program.checkIntegrity = .ok () ∧
    program.execute [1, 2, 3, 4, 5] narrow = .ok (session narrowLimits) ∧
    (pause narrowLimits).resume [6, 7] narrow = .ok (resumed narrowLimits) ∧
    ((allSegments [session narrowLimits, resumed narrowLimits]).map fun s =>
      s.instructionCount) = [4, 3, 5, 1, 5, 1] ∧
    ∀ s ∈ allSegments [session narrowLimits, resumed narrowLimits], ∃ r, s.proveFully = .ok r ∧
      r.sealBytes.length ≤ (s.instructionCount.toNat + 1) * Row.sizeEstimate s.params.merkleDepth ∧
      ∃ estimate, s.witnessEstimate = some estimate ∧
        2 * r.sealBytes.length + s.trace.residentBytes ≤ estimate.toNat := by
  have hexit : (session narrowLimits).info.exitCode = .paused 7 := by decide +kernel
  have hsessions : program.Sessions [session narrowLimits] (resumed narrowLimits) :=
    .resume (.execute execute_narrow) (continuation_session hexit) resume_narrow
  refine ⟨checkIntegrity_program, execute_narrow, resume_narrow, by decide +kernel, fun s hs => ?_⟩
  obtain ⟨-, -, hchain⟩ := estimates_cover
  obtain ⟨hcovers, -, r, hr⟩ :=
    hchain program _ _ checkIntegrity_program wellFormed_memory hsessions s hs
  exact ⟨r, hr, hcovers.length_le _ _ _ hr, hcovers.estimate_ge _ _ _ hr⟩

/-! ### A guest without instructions -/

/-- The row of an end state in which the next step gives the fault of the exit. -/
theorem Playback.finalRow_of_error {params : Params} {p : Playback} {exit : ExitCode}
    {reason : FaultReason} (hexit : exit.finalFault = some reason)
    (h : (p.step params).result = .error reason) : p.finalRow params exit =
      .ok ⟨p.state, (p.step params).bus.fetch, (p.step params).bus.data, none⟩ := by
  simp [finalRow, hexit, h]

namespace BlankGuest

/-- The parameters of the guest. -/
def params : Params := { memoryBits := 14 }

/-- A memory of zeros, which are no instruction, over some address space. -/
def memory (bits : UInt32) : Memory := Memory.empty { memoryBits := bits }

/-- The program that starts with this memory. -/
def program (bits : UInt32) : Program := .make (memory bits) minMemory params ⟨"", [], 0⟩

/-- The machine at its entry point. -/
def start : Machine := Program.machineAt params minMemory

/-- The fault of its first instruction. -/
def reason : FaultReason := .illegalInstruction minMemory 0

/-- The options under which the program is run. -/
def options : ExecutionOptions := { segmentLimit := 8, maxCycles := 100 }

theorem segmentLimit_pos : 0 < 8 := by decide

/-- The limits that the options set. -/
def limits : RunLimits := ⟨8, 100, 1024, segmentLimit_pos⟩

theorem limits_options : options.limits params 0 = .ok limits := rfl

theorem validate_params : params.validate = .ok () := Params.validate_eq_ok_iff.mpr (by decide)

variable {bits : UInt32}

theorem wellFormed_memory (hbits : 14 ≤ bits.toNat ∧ bits.toNat ≤ 30) :
    (memory bits).WellFormed :=
  Memory.wellFormed_empty (Params.validate_eq_ok_iff.mpr ⟨hbits,
    show (1024 : UInt32) ∈ Params.pageSizes ∧
      1 ≤ (20 : UInt32).toNat ∧ (20 : UInt32).toNat ≤ 24 by decide⟩)

theorem loadWord_memory (bits addr : UInt32) : (memory bits).loadWord addr = 0 := by
  simp [memory, Memory.loadWord, Memory.empty]

theorem step_start {σ : Type} {bus : Bus σ} {b : σ} (h : (bus.fetch b minMemory).1 = 0) :
    start.step bus params b = ⟨.error reason, start, (bus.fetch b minMemory).2⟩ := by
  have hf : Machine.canFetch params start.cpu.pc = true := by decide
  have hplan : start.plan params (bus.fetch b start.cpu.pc).1 = .error reason := by
    rw [show (bus.fetch b start.cpu.pc).1 = 0 from h]
    rfl
  exact Machine.step_of_plan_error hf hplan

/-- The guest faults at once. -/
theorem segmentEnd_live : ((program bits).live []).segmentEnd limits =
    ⟨.fault reason, 0, (program bits).live []⟩ := by
  have hresult : (start.step World.bus params ((program bits).live []).world).result =
      .error reason := by
    rw [step_start (loadWord_memory bits minMemory)]
  have hstep : ((program bits).live []).step = (.error reason, (program bits).live []) :=
    Live.step_of_result_error hresult
  have hfresh : ((program bits).live []).fresh = (program bits).live [] := rfl
  have hcycles : ¬limits.maxCycles ≤ ((program bits).live []).cycles :=
    show ¬100 ≤ 0 by decide
  rw [Live.segmentEnd, hfresh]
  change ((program bits).live []).runSegment limits (7 + 1) [] 0 = _
  rw [Live.runSegment, if_neg hcycles]
  simp only [Nat.lt_irrefl, false_and, if_false, hstep]

/-- The only segment of the guest. -/
def segment (bits : UInt32) : Segment :=
  ((program bits).live []).segment 0 ⟨.fault reason, 0, (program bits).live []⟩

theorem execute_program (bits : UInt32) : ∃ x, (program bits).execute [] options = .ok x ∧
    segment bits ∈ x.segments := by
  have hend : (((program bits).live []).segmentEnd limits).exit ≠ .systemSplit := by
    rw [segmentEnd_live]
    simp
  refine ⟨_, Program.execute_eq_ok_iff.mpr ⟨limits, limits_options, rfl⟩, ?_⟩
  rw [Live.run, Live.runFrom, dif_neg hend, segmentEnd_live]
  exact List.mem_singleton_self _

/-- The row of the end state, which is the only row. -/
def row (bits : UInt32) : Row where
  state := .of start (memory bits).root
  fetch := some ⟨minMemory, 0, (memory bits).path minMemory⟩

theorem witnessed_segment : (segment bits).Witnessed [] (row bits) ⟨start, memory bits, []⟩ where
  count_ne_zero h := by simp [segment, Live.segment, ExitCode.needsInstruction] at h
  rows_eq := rfl
  replies_eq := rfl
  finalRow_eq := by
    have hstep : Playback.step params ⟨start, memory bits, []⟩ =
        ⟨.error reason, start, Playback.fetched ⟨start, memory bits, []⟩⟩ :=
      step_start (loadWord_memory bits minMemory)
    have hfetch : (Playback.fetched ⟨start, memory bits, []⟩).fetch = (row bits).fetch := by
      rw [row, ← loadWord_memory bits minMemory]
      rfl
    have hlast : Playback.finalRow params (.fault reason) ⟨start, memory bits, []⟩ = _ :=
      Playback.finalRow_of_error rfl (congrArg StepResult.result hstep)
    rw [hstep] at hlast
    exact hlast.trans (by rw [hfetch]; rfl)
  end_eq := rfl
  output_eq := rfl

/-- The space of the witness of the guest can be counted. -/
theorem exists_witnessEstimate (hbits : 14 ≤ bits.toNat ∧ bits.toNat ≤ 30) :
    ∃ estimate, (segment bits).witnessEstimate = some estimate :=
  Segment.exists_witnessEstimate (wellFormed_memory hbits) validate_params
    (show 0 < 1 <<< 60 by decide)

theorem proveFully_segment (hbits : 14 ≤ bits.toNat ∧ bits.toNat ≤ 30) :
    (segment bits).proveFully = .ok ((segment bits).receiptOf [row bits]) := by
  refine Segment.prove_eq_ok_iff.mpr ⟨fun _ => rfl, ?_, _,
    Segment.witness_eq_ok_iff.mpr ⟨_, _, _, witnessed_segment, rfl⟩, rfl⟩
  refine Segment.checkAdmission_eq_ok_iff.mpr ⟨validate_params,
    Segment.checkStatement_eq_ok_iff.mpr ⟨rfl, Nat.zero_le _, rfl⟩,
    .of_exists (exists_witnessEstimate hbits)⟩

/-- The number of bytes of the seal of the guest. -/
theorem length_sealBytes (hbits : 14 ≤ bits.toNat ∧ bits.toNat ≤ 30) :
    ((segment bits).receiptOf [row bits]).sealBytes.length = 279 + (bits.toNat - 2) * 32 := by
  have hpath : ((memory bits).path minMemory).siblings.length = bits.toNat - 2 := by
    rw [Memory.length_path, (wellFormed_memory hbits).depth_eq,
      (wellFormed_memory hbits).treeDepth_eq]
    rfl
  have hrow : (Row.format.encode (row bits)).length = 219 + (bits.toNat - 2) * 32 := by
    rw [Row.length_encode, row, Row.stateSize]
    simp only [Option.map_some, Option.getD_some, Option.map_none, Option.getD_none, hpath]
    omega
  change (SegmentSeal.format.encode ((segment bits).sealOf [row bits])).length = _
  rw [SegmentSeal.length_encode, Segment.sealOf, List.map_singleton, List.sum_singleton, hrow]
  omega

end BlankGuest

open BlankGuest in
/-- A program whose memory has more address space than its parameters does not pass its check, but
is executed. Its segment is proven, with a seal that is longer than the rows of the estimate, and of
which the whole estimate does not hold two. -/
theorem Session.estimate_exceeded : ∃ (p : Program) (options : ExecutionOptions) (x : Session)
    (s : Segment) (r : SegmentReceipt), p.memory.WellFormed ∧ p.params.validate = .ok () ∧
      p.checkIntegrity = .error (.format .memoryLayoutMismatch) ∧
      p.execute [] options = .ok x ∧ s ∈ x.segments ∧ s.proveFully = .ok r ∧
      (s.instructionCount.toNat + 1) * Row.sizeEstimate s.params.merkleDepth <
        r.sealBytes.length ∧
      ∃ estimate, s.witnessEstimate = some estimate ∧
        estimate.toNat < 2 * r.sealBytes.length + s.trace.residentBytes := by
  obtain ⟨x, hx, hsegment⟩ := execute_program 30
  have hlength : ((segment 30).receiptOf [row 30]).sealBytes.length = 1175 :=
    length_sealBytes (by decide)
  have hrows : ((segment 30).instructionCount.toNat + 1) *
      Row.sizeEstimate (segment 30).params.merkleDepth = 1064 := rfl
  have hrefused : (program 30).checkIntegrity = .error (.format .memoryLayoutMismatch) := by
    rw [Program.checkIntegrity, show (program 30).params.validate = .ok () from validate_params]
    exact (if_neg (not_not.mpr rfl)).trans (if_pos (.inr (show (30 : UInt32) ≠ 14 by decide)))
  refine ⟨program 30, options, x, segment 30, _, wellFormed_memory (by decide), validate_params,
    hrefused, hx, hsegment, proveFully_segment (by decide), ?_, ?_⟩
  · rw [hrows, hlength]
    decide
  · obtain ⟨estimate, hestimate⟩ := exists_witnessEstimate (show 14 ≤ UInt32.toNat 30 ∧ _ by decide)
    refine ⟨estimate, hestimate, ?_⟩
    rw [(Segment.witnessEstimate_eq_some_iff.mp hestimate).2, Nat.mul_assoc, hrows, hlength]
    omega

end ReplayVM
