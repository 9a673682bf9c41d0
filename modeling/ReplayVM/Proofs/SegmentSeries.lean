import Mathlib.Data.List.Chain
import ReplayVM.Execution.Session
import ReplayVM.Proofs.JoiningCompleteness
import ReplayVM.Proofs.ProvingCompleteness

/-!
# Series of segments

The segments of a run form a series: each is proven by its rows, each starts where the one before
was split off, and they are numbered without gaps. Series that meet are one series, so that the
segments of sessions in a row form a series as well. The receipts of a series can be joined.

## Main definitions

* `Segment.Series`: segments in a row that lead from a state to a running machine.

## Main results

* `Segment.Series.append`: series that meet are one series.
* `Live.series_runFrom`: the segments of a run form a series.
* `Segment.Series.exists_receipts`: the segments of a series are proven by joinable receipts.
-/

namespace ReplayVM

/-- Segments under some parameters in a row, each proven by its rows, numbered from an index on.
They lead from a state to a running machine in a number of instructions, and the last one has the
given exit. -/
structure Segment.Series (params : Params) (index : Nat) (start : SystemState)
    (segments : List Segment) (exit : ExitCode) (stop : Live) (count : Nat) : Prop where
  ne_nil : segments ≠ []
  proven : ∀ s ∈ segments, ∃ rows, s.ProvenWith rows
  params_eq : ∀ s ∈ segments, s.params = params ∧ s.configDigest = params.configDigest
  chained : segments.IsChain fun a b => a.claim.Continues b.claim
  first_eq : ∀ s ∈ segments.head?, s.index.toNat = index ∧ s.startCommitment = start.commitment
  last_eq : ∀ s ∈ segments.getLast?, s.index.toNat + 1 = index + segments.length ∧
    s.endCommitment = stop.state.commitment ∧ s.exitCode = exit ∧
    s.outputDigest = stop.machine.output.digest
  count_eq : (segments.map fun s => s.instructionCount.toNat).sum = count

namespace Segment.Series

variable {params : Params} {index count count' : Nat} {start : SystemState}
  {segments segments' : List Segment} {exit exit' : ExitCode} {stop stop' : Live}

/-- Series that meet are one series. -/
theorem append (h : Series params index start segments exit stop count)
    (h' : Series params (index + segments.length) stop.state segments' exit' stop' count')
    (hexit : exit.isContinuable = true) :
    Series params index start (segments ++ segments') exit' stop' (count + count') where
  ne_nil := by simp [h.ne_nil]
  proven s hs := (List.mem_append.mp hs).elim (h.proven s) (h'.proven s)
  params_eq s hs := (List.mem_append.mp hs).elim (h.params_eq s) (h'.params_eq s)
  chained := by
    refine List.isChain_append.mpr ⟨h.chained, h'.chained, fun a ha b hb => ?_⟩
    obtain ⟨hindex, hend, haexit, -⟩ := h.last_eq a ha
    obtain ⟨hbindex, hstart⟩ := h'.first_eq b hb
    refine ⟨?_, hend.trans hstart.symm, ?_, hindex.trans hbindex.symm⟩
    · exact (h.params_eq a (List.mem_of_getLast? ha)).2.trans
        (h'.params_eq b (List.mem_of_head? hb)).2.symm
    · rwa [← haexit] at hexit
  first_eq s hs := by
    rw [List.head?_append_of_ne_nil _ h.ne_nil] at hs
    exact h.first_eq s hs
  last_eq s hs := by
    rw [List.getLast?_append_of_ne_nil _ h'.ne_nil] at hs
    rw [List.length_append, ← Nat.add_assoc]
    exact h'.last_eq s hs
  count_eq := by rw [List.map_append, List.sum_append, h.count_eq, h'.count_eq]

theorem endCommitment_eq (h : Series params index start segments exit stop count) :
    segments.getLast?.map endCommitment = some stop.state.commitment := by
  have hlast := List.getLast?_eq_some_getLast h.ne_nil
  rw [hlast, Option.map_some, (h.last_eq _ hlast).2.1]

end Segment.Series

/-! ### Runs -/

namespace Live

variable {s : Live} {limits : RunLimits}

/-- A running machine under parameters in range, with well-formed memory and a journal that its hash
belongs to. -/
structure Sound (s : Live) : Prop where
  params_valid : s.params.validate = .ok ()
  memory : s.world.memory.WellFormedFor s.params
  journal : s.JournalHashed

/-- A segment leads from a sound machine to a sound one. -/
theorem Sound.segmentEnd (h : s.Sound) (limits : RunLimits) :
    (s.segmentEnd limits).live.Sound ∧ (s.segmentEnd limits).live.params = s.params := by
  have hstretch := (stretch_segmentEnd limits s).2
  have hparams : (s.segmentEnd limits).live.params = s.params := hstretch.params_eq
  exact ⟨⟨hparams.symm ▸ h.params_valid, hstretch.wellFormedFor h.memory,
    hstretch.journalHashed h.journal⟩, hparams⟩

/-- A single segment is a series. -/
theorem Sound.series (h : s.Sound) (hlimit : limits.segmentLimit ≤ s.params.maxSegmentCycles)
    (index : UInt32) :
    Segment.Series s.params index.toNat s.state [s.segment index (s.segmentEnd limits)]
      (s.segmentEnd limits).exit (s.segmentEnd limits).live (s.segmentEnd limits).count where
  ne_nil := by simp
  proven := by simpa using exists_provenWith h.params_valid h.memory hlimit
  params_eq := by simp [segment]
  chained := by simp
  first_eq := by simp [segment]
  last_eq := by simp [segment]
  count_eq := by simpa [segment] using (count_segmentEnd_le h.params_valid hlimit).2

/-- The segments of a run of a sound machine form a series, unless their indices run out. -/
theorem series_runFrom (limits : RunLimits) (done : Array Segment) (index : UInt32) (s : Live)
    (h : s.Sound) (hlimit : limits.segmentLimit ≤ s.params.maxSegmentCycles) :
    ∃ segments, segments ≠ [] ∧
      (s.runFrom limits done index).segments = done.toList ++ segments ∧
      (s.runFrom limits done index).nextIndex = index + segments.length.toUInt32 ∧
      (s.runFrom limits done index).live.Sound ∧
      (s.runFrom limits done index).live.params = s.params ∧
      (index.toNat + segments.length ≤ UInt32.size →
        ∃ count, (s.runFrom limits done index).live.cycles = s.cycles + count ∧
          Segment.Series s.params index.toNat s.state segments (s.runFrom limits done index).exit
            (s.runFrom limits done index).live count) := by
  fun_induction runFrom limits done index s with
  | case1 done index s e done' hsplit ih =>
    obtain ⟨hsound, hparams⟩ := h.segmentEnd limits
    obtain ⟨segments, hne, hsegments, hnext, hstop, hstopParams, hseries⟩ :=
      ih hsound (hparams.symm ▸ hlimit)
    refine ⟨s.segment index e :: segments, by simp, ?_, ?_, hstop, hstopParams.trans hparams,
      fun hlen => ?_⟩
    · rw [hsegments]
      simp [done']
    · rw [hnext, List.length_cons, UInt32.add_assoc, UInt32.add_comm 1]
      simp
    · have hpos := List.length_pos_iff.mpr hne
      rw [List.length_cons] at hlen
      have hindex : (index + 1).toNat = index.toNat + 1 := toNat_add_one_of_lt (by omega)
      obtain ⟨count, hcycles, hrest⟩ := hseries (by omega)
      rw [hindex] at hrest
      have hfirst := h.series hlimit index
      refine ⟨e.count + count, ?_, hfirst.append (hparams ▸ hrest) ?_⟩
      · have := (stretch_segmentEnd limits s).2.cycles_eq
        rw [hcycles, this]
        exact Nat.add_assoc _ _ _
      · rw [hsplit]
        rfl
  | case2 done index s e done' hsplit =>
    obtain ⟨hsound, hparams⟩ := h.segmentEnd limits
    refine ⟨[s.segment index e], by simp, by simp [done'], rfl, hsound, hparams,
      fun _ => ⟨e.count, ?_, ?_⟩⟩
    · exact (stretch_segmentEnd limits s).2.cycles_eq
    · exact h.series hlimit index

/-- Every segment but the last executes an instruction, so a run has no more segments than it has
cycles left and one. -/
theorem length_segments_runFrom_le (limits : RunLimits) (done : Array Segment) (index : UInt32)
    (s : Live) : (s.runFrom limits done index).segments.length ≤
      done.size + (limits.maxCycles - s.cycles) + 1 := by
  fun_induction runFrom limits done index s with
  | case1 done index s e done' hsplit ih =>
    obtain ⟨hwithin, hprogress⟩ := cycles_lt_of_split hsplit
    change s.cycles < e.live.cycles at hprogress
    have hsize : done'.size = done.size + 1 := Array.size_push _
    rw [hsize] at ih
    omega
  | case2 done index s e done' hsplit =>
    have hsize : done'.toList.length = done.size + 1 := by simp [done']
    exact hsize ▸ Nat.succ_le_succ (Nat.le_add_right _ _)

/-- A run whose first segment is not split off ends as that segment does. -/
theorem exit_run {index : UInt32} (h : (s.segmentEnd limits).exit ≠ .systemSplit) :
    (s.run limits index).exit = (s.segmentEnd limits).exit := by
  rw [run, runFrom, dif_neg h]

end Live

/-! ### Receipts -/

namespace Segment.Series

variable {params : Params} {index count : Nat} {start : SystemState} {segments : List Segment}
  {exit : ExitCode} {stop : Live}

/-- The segments of a series are proven one by one, each to an accepted receipt that can be lifted
where the parameters name the present programs. -/
theorem exists_receipts (h : Series params index start segments exit stop count)
    (hversion : params.recursionVersion = recursionVersion) :
    ∃ receipts, segments.mapM proveFully = .ok receipts ∧
      receipts.map SegmentReceipt.claim = segments.map claim ∧
      ∀ r ∈ receipts, r.verify = .ok () ∧ ∃ x, r.lift = .ok x := by
  have hproven := h.proven
  have hparams := h.params_eq
  clear h
  induction segments with
  | nil => exact ⟨[], rfl, rfl, by simp⟩
  | cons s segments ih =>
    obtain ⟨rows, hrows⟩ := hproven s List.mem_cons_self
    obtain ⟨receipts, hmap, hclaims, hall⟩ := ih (fun s hs => hproven s (List.mem_cons_of_mem _ hs))
      fun s hs => hparams s (List.mem_cons_of_mem _ hs)
    refine ⟨s.receiptOf rows :: receipts,
      mapM_eq_ok_iff.mpr (.cons hrows.proveFully_eq (mapM_eq_ok_iff.mp hmap)), ?_, ?_⟩
    · rw [List.map_cons, List.map_cons, hclaims]
      rfl
    · intro r hr
      rcases List.mem_cons.mp hr with rfl | hr
      · refine ⟨hrows.verify, SegmentReceipt.exists_lift hrows.verify hrows.decodeSeal_eq ?_⟩
        exact (congrArg Params.recursionVersion (hparams s List.mem_cons_self).1).trans hversion
      · exact hall r hr

theorem receipts_ne_nil (h : Series params index start segments exit stop count)
    {receipts : List SegmentReceipt}
    (hclaims : receipts.map SegmentReceipt.claim = segments.map claim) : receipts ≠ [] := by
  rintro rfl
  exact h.ne_nil (List.map_eq_nil_iff.mp hclaims.symm)

/-- Receipts of a series that can be lifted can be joined. -/
theorem joinable (h : Series params index start segments exit stop count)
    (hlen : segments.length < UInt32.size) {receipts : List SegmentReceipt}
    (hclaims : receipts.map SegmentReceipt.claim = segments.map claim)
    (hlift : ∀ r ∈ receipts, ∃ x, r.lift = .ok x) : SegmentReceipt.Joinable receipts where
  lifted := hlift
  chained := by
    have hchained := (List.isChain_map claim).mpr h.chained
    rw [← hclaims] at hchained
    exact (List.isChain_map SegmentReceipt.claim).mp hchained
  length_lt := by
    have := congrArg List.length hclaims
    rw [List.length_map, List.length_map] at this
    rwa [this]

/-- What a receipt states that covers the receipts of a series. -/
theorem claim_eq_of_covers (h : Series params index start segments exit stop count)
    {receipts : List SegmentReceipt}
    (hclaims : receipts.map SegmentReceipt.claim = segments.map claim) {r : SuccinctReceipt}
    (hcovers : r.Covers receipts) :
    r.claim = ⟨params.configDigest, start.commitment, stop.state.commitment,
        ⟨exit, stop.machine.output.digest⟩⟩ ∧
      r.span.first.toNat = index ∧ r.span.count.toNat = segments.length ∧
      r.span.cycles.toNat = count := by
  have hlen : receipts.length = segments.length := by
    simpa using congrArg List.length hclaims
  obtain ⟨first, hfirst⟩ : ∃ first, receipts.head? = some first :=
    ⟨_, List.head?_eq_some_head hcovers.ne_nil⟩
  obtain ⟨last, hlast⟩ : ∃ last, receipts.getLast? = some last :=
    ⟨_, List.getLast?_eq_some_getLast hcovers.ne_nil⟩
  obtain ⟨firstSegment, hfirstSegment, hfirstClaim⟩ : ∃ s, segments.head? = some s ∧
      s.claim = first.claim := by
    have := congrArg List.head? hclaims
    simpa [List.head?_map, hfirst, eq_comm] using this
  obtain ⟨lastSegment, hlastSegment, hlastClaim⟩ : ∃ s, segments.getLast? = some s ∧
      s.claim = last.claim := by
    have := congrArg List.getLast? hclaims
    simpa [List.getLast?_map, hlast, eq_comm] using this
  obtain ⟨hindex, hstart⟩ := h.first_eq firstSegment hfirstSegment
  obtain ⟨-, hend, hexit, houtput⟩ := h.last_eq lastSegment hlastSegment
  obtain ⟨hspan, hrstart⟩ := hcovers.first_eq first hfirst
  obtain ⟨hrend, hrexit⟩ := hcovers.last_eq last hlast
  have hconfig := hcovers.config_eq first (List.mem_of_head? hfirst)
  rw [← hfirstClaim] at hspan hrstart hconfig
  rw [← hlastClaim] at hrend hrexit
  refine ⟨?_, ?_, hcovers.count_eq.trans hlen, hcovers.cycles_eq.trans ?_⟩
  · have hconfig' := (h.params_eq firstSegment (List.mem_of_head? hfirstSegment)).2
    have hclaim : r.claim = ⟨r.claim.configDigest, r.claim.startCommitment, r.claim.endCommitment,
        r.claim.exit⟩ := rfl
    rw [hclaim, ← hconfig, ← hrstart, ← hrend, hrexit]
    simp [claim, hconfig', hstart, hend, hexit, houtput]
  · rw [← hspan]
    exact hindex
  · have hcounts := congrArg (List.map fun c => c.instructionCount.toNat) hclaims
    rw [List.map_map, List.map_map] at hcounts
    rw [← h.count_eq]
    exact congrArg List.sum hcounts

end Segment.Series

end ReplayVM
