import ReplayVM.Proofs.Composition
import ReplayVM.Proofs.FormatLaws

/-!
# Completeness of joining

Accepted receipts that chain can be joined in every order. A receipt that a program makes carries a
seal that belongs to it, so the checks of a further join find nothing wrong with it; and what is
left to check is that the two stretches of segments meet, which neighbouring stretches of a chain
do.

## Main definitions

* `SegmentReceipt.Joinable`: receipts that can be lifted and chain.

## Main results

* `JoinTree.exists_eval`: every tree over joinable receipts makes a receipt.
* `SegmentReceipt.exists_joinAll`: both strategies make a receipt of joinable receipts, which is
  accepted.
-/

namespace ReplayVM

/-! ### Seals that belong to their receipts -/

namespace SuccinctReceipt

/-- A seal is bound to the depth and the span that it was made for. -/
theorem isBound_make (program : RecursionProgram) (claim : SuccinctClaim) (inputs : Digest)
    (depth : UInt32) (span : SegmentSpan) :
    (RecursionSeal.make program claim inputs depth span).isBound depth span = true := by
  simp only [RecursionSeal.make, RecursionSeal.isBound, RecursionSeal.bindingFor,
    RecursionSeal.bindingPreimage, decide_true]

/-- The seal of a receipt that a program makes, at a depth and over a span that the program may
have, belongs to it. -/
theorem checkedSeal_make {program : RecursionProgram} {claim : SuccinctClaim} {inputs : Digest}
    {depth : UInt32} {span : SegmentSpan} (hprogram : program = .ofDepth depth)
    (hcount : span.count ≠ 0) (hlift : program = .lift → span.count = 1) :
    (make program claim inputs depth span).checkedSeal =
      .ok (.make program claim inputs depth span) := by
  have hseal : (make program claim inputs depth span).decodeSeal =
      .ok (.make program claim inputs depth span) :=
    (RecursionSeal.lawful _).decode_encode
  have hspan : ¬(span.count = 0 ∨ program = .lift ∧ span.count ≠ 1) := by
    rintro (h | ⟨h, hne⟩)
    · exact hcount h
    · exact hne (hlift h)
  have hcheck : (make program claim inputs depth span).checkSeal
      (.make program claim inputs depth span) = .ok () := by
    simp only [checkSeal, make, ← hprogram, isBound_make]
    rw [if_neg, if_neg hspan, if_neg (fun h => h rfl)]
    · rfl
    · rintro (h | h)
      · exact h rfl
      · exact h rfl
  rw [checkedSeal, openSeal, hseal]
  simp only [Except.mapError, bind, Except.bind, hcheck]
  rfl

/-- A receipt whose seal belongs to it is accepted where seals of this backend are. -/
theorem verifyWith_of_checkedSeal {r : SuccinctReceipt} {content : RecursionSeal}
    (h : r.checkedSeal = .ok content) : r.verifyWith ⟨true⟩ = .ok () := by
  simp only [verifyWith, h, bind, Except.bind]
  cases content.backend
  rfl

/-! ### Joining two receipts -/

variable {a b r x : SuccinctReceipt}

theorem checkIntegrity_eq_ok_iff : r.checkIntegrity = .ok () ↔ ∃ s, r.checkedSeal = .ok s := by
  rw [checkIntegrity, bind_eq_ok_iff]
  exact exists_congr fun s => and_iff_left rfl

/-- Two receipts can be joined if both are sound, one continues the other, and their numbers can be
added. -/
theorem exists_join_iff : (∃ x, a.join b = .ok x) ↔ a.checkIntegrity = .ok () ∧
    b.checkIntegrity = .ok () ∧ a.checkChain b = .ok () ∧ a.HasRoom b := by
  simp only [join, bind_eq_ok_iff, mapError_eq_ok_iff, Stop.fit_eq_ok_iff, checkIntegrity_eq_ok_iff,
    hasRoom_iff, pure, Except.pure, Except.ok.injEq]
  constructor
  · rintro ⟨x, s, hs, t, ht, ⟨⟩, hchain, span, hspan, depth, hdepth, -⟩
    exact ⟨⟨s, hs⟩, ⟨t, ht⟩, hchain, ⟨span, hspan⟩, depth, hdepth⟩
  · rintro ⟨⟨s, hs⟩, ⟨t, ht⟩, hchain, ⟨span, hspan⟩, depth, hdepth⟩
    exact ⟨_, s, hs, t, ht, (), hchain, span, hspan, depth, hdepth, rfl⟩

/-- Two receipts of which one continues the other, and whose numbers cannot be added, stop the
program. -/
theorem join_eq_overflow (ha : a.checkIntegrity = .ok ()) (hb : b.checkIntegrity = .ok ())
    (hchain : a.checkChain b = .ok ()) (hroom : ¬a.HasRoom b) : a.join b = .error .overflow := by
  obtain ⟨s, hs⟩ := checkIntegrity_eq_ok_iff.mp ha
  obtain ⟨t, ht⟩ := checkIntegrity_eq_ok_iff.mp hb
  rw [hasRoom_iff] at hroom
  simp only [join, hs, ht, hchain, Except.mapError, bind, Except.bind]
  cases hspan : a.span.append? b.span with
  | none => rfl
  | some span =>
    cases hdepth : a.joinDepth? b with
    | none => rfl
    | some depth => exact absurd ⟨⟨span, hspan⟩, depth, hdepth⟩ hroom

/-- A sound receipt covers a segment. -/
theorem count_ne_zero_of_checkIntegrity (h : r.checkIntegrity = .ok ()) : r.span.count ≠ 0 := by
  obtain ⟨s, hs⟩ := checkIntegrity_eq_ok_iff.mp h
  simp only [checkedSeal, bind_eq_ok_iff, mapError_eq_ok_iff] at hs
  obtain ⟨content, -, ⟨⟩, hcheck, -⟩ := hs
  simp only [checkSeal] at hcheck
  split_ifs at hcheck with hcontrol hspan
  exact fun hzero => hspan (.inl hzero)

/-- A joined receipt is sound. -/
theorem checkIntegrity_join (h : a.join b = .ok x) : x.checkIntegrity = .ok () := by
  obtain ⟨ha, -⟩ := exists_join_iff.mp ⟨x, h⟩
  obtain ⟨-, inputs, depth, span, hspan, hdepth, rfl⟩ := join_eq_ok h
  obtain ⟨-, hcount, -⟩ := SegmentSpan.append?_eq_some_iff.mp hspan
  have hdepth := joinDepth?_eq_some_iff.mp hdepth
  refine checkIntegrity_eq_ok_iff.mpr ⟨_, checkedSeal_make ?_ ?_ (by simp)⟩
  · rw [RecursionProgram.ofDepth, if_neg]
    rintro rfl
    rw [UInt32.toNat_zero] at hdepth
    omega
  · intro hzero
    refine count_ne_zero_of_checkIntegrity ha (UInt32.toNat_inj.mp ?_)
    rw [hzero, UInt32.toNat_zero] at hcount
    rw [UInt32.toNat_zero]
    omega

end SuccinctReceipt

/-- A receipt that verifies and was made for the present programs is lifted. -/
theorem SegmentReceipt.exists_lift {r : SegmentReceipt} {content : SegmentSeal}
    (hverify : r.verify = .ok ()) (hseal : r.decodeSeal = .ok content)
    (hversion : content.params.recursionVersion = recursionVersion) : ∃ x, r.lift = .ok x := by
  have hopen : r.openSeal = .ok content := by rw [openSeal, hseal, Except.mapError]
  simp [lift, checkLift, hverify, hopen, hversion, Except.mapError, bind, Except.bind, pure,
    Except.pure]

/-! ### Trees -/

/-- Receipts of segments that can be lifted and chain, fewer than there are indices. -/
structure SegmentReceipt.Joinable (leaves : List SegmentReceipt) : Prop where
  lifted : ∀ leaf ∈ leaves, ∃ r, leaf.lift = .ok r
  chained : leaves.IsChain fun a b => a.claim.Continues b.claim
  length_lt : leaves.length < UInt32.size

open SegmentReceipt (Joinable)

/-- A stretch of joinable receipts is joinable. -/
theorem SegmentReceipt.Joinable.of_infix {leaves some : List SegmentReceipt} (h : Joinable leaves)
    (hpart : some <:+: leaves) : Joinable some where
  lifted leaf hleaf := h.lifted leaf (hpart.subset hleaf)
  chained := h.chained.infix hpart
  length_lt := Nat.lt_of_le_of_lt hpart.length_le h.length_lt

/-- Two receipts that cover neighbouring stretches of a chain meet. -/
theorem SuccinctReceipt.Covers.checkChain {left right : SuccinctReceipt}
    {lefts rights : List SegmentReceipt} (hl : left.Covers lefts) (hr : right.Covers rights)
    (hchain : (lefts ++ rights).IsChain fun a b => a.claim.Continues b.claim) :
    left.checkChain right = .ok () := by
  have hlast := List.getLast?_eq_some_getLast hl.ne_nil
  have hsecond := List.head?_eq_some_head hr.ne_nil
  obtain ⟨-, -, hmeet⟩ := List.isChain_append.mp hchain
  exact (hl.checkChain_eq_ok_iff hr hlast hsecond).mpr (hmeet _ hlast _ hsecond)

namespace JoinTree

open SuccinctReceipt

/-- The receipt of a tree is sound. -/
theorem checkIntegrity_of_eval {t : JoinTree} {r : SuccinctReceipt} (h : t.eval = .ok r) :
    r.checkIntegrity = .ok () := by
  cases t with
  | leaf receipt =>
    obtain ⟨-, rfl⟩ := lift_eq_ok (eval_leaf_eq_ok_iff.mp h)
    exact checkIntegrity_eq_ok_iff.mpr
      ⟨_, checkedSeal_make rfl (show (1 : UInt32) ≠ 0 by decide) fun _ => rfl⟩
  | node left right =>
    obtain ⟨a, b, -, -, hjoin⟩ := eval_node_eq_ok_iff.mp h
    exact checkIntegrity_join hjoin

/-- Every tree over joinable receipts makes a receipt. -/
theorem exists_eval {t : JoinTree} (h : Joinable t.leaves) : ∃ r, t.eval = .ok r := by
  induction t with
  | leaf receipt =>
    obtain ⟨r, hr⟩ := h.lifted receipt (List.mem_singleton_self receipt)
    exact ⟨r, eval_leaf_eq_ok_iff.mpr hr⟩
  | node left right ihl ihr =>
    have hl : Joinable left.leaves := h.of_infix (List.prefix_append _ _).isInfix
    have hr : Joinable right.leaves := h.of_infix (List.suffix_append _ _).isInfix
    obtain ⟨a, ha⟩ := ihl hl
    obtain ⟨b, hb⟩ := ihr hr
    have hroom : a.HasRoom b := by
      refine (covers_of_eval ha).hasRoom (covers_of_eval hb) h.length_lt ?_
      rw [depth_of_eval ha, depth_of_eval hb]
      have := (node left right).height_lt_length_leaves
      rw [height, leaves] at this
      exact Nat.lt_of_succ_lt this
    obtain ⟨joined, hjoin⟩ := exists_join_iff.mpr ⟨checkIntegrity_of_eval ha,
      checkIntegrity_of_eval hb, (covers_of_eval ha).checkChain (covers_of_eval hb) h.chained,
      hroom⟩
    exact ⟨joined, eval_node_eq_ok_iff.mpr ⟨a, b, ha, hb, hjoin⟩⟩

/-- Receipts of two trees that are neighbours can be joined. -/
theorem exists_join {t u : JoinTree} {r s : SuccinctReceipt} (ht : t.eval = .ok r)
    (hu : u.eval = .ok s) (h : Joinable (t.leaves ++ u.leaves)) :
    ∃ joined, r.join s = .ok joined ∧ (node t u).eval = .ok joined := by
  obtain ⟨joined, heval⟩ := exists_eval (t := node t u) h
  obtain ⟨a, b, ha, hb, hjoin⟩ := eval_node_eq_ok_iff.mp heval
  obtain rfl : r = a := Except.ok.inj (ht.symm.trans ha)
  obtain rfl : s = b := Except.ok.inj (hu.symm.trans hb)
  exact ⟨joined, hjoin, heval⟩

/-! ### Reducing lists -/

open Pairing

theorem exists_reduceFold {t : JoinTree} {ts : List JoinTree} {r : SuccinctReceipt}
    {rs : List SuccinctReceipt} (ht : t.eval = .ok r) (hts : Make ts rs)
    (h : Joinable (t.leaves ++ ts.flatMap leaves)) : ∃ x, reduceFold r rs = .ok x := by
  induction hts generalizing t r with
  | nil => exact ⟨r, rfl⟩
  | @cons u s ts rs hu hts ih =>
    rw [List.flatMap_cons, ← List.append_assoc] at h
    obtain ⟨joined, hjoin, heval⟩ := exists_join ht hu (h.of_infix (List.prefix_append _ _).isInfix)
    obtain ⟨x, hx⟩ := ih heval h
    exact ⟨x, bind_eq_ok_iff.mpr ⟨joined, hjoin, hx⟩⟩

theorem exists_pairUpM {ts : List JoinTree} {rs : List SuccinctReceipt} (hts : Make ts rs)
    (h : Joinable (ts.flatMap leaves)) : ∃ xs, pairUpM join rs = .ok xs := by
  fun_induction pairUpM join rs generalizing ts with
  | case1 a b rs ih =>
    cases hts with
    | @cons t _ ts _ ht hts =>
      cases hts with
      | @cons u _ ts _ hu hts =>
        rw [List.flatMap_cons, List.flatMap_cons, ← List.append_assoc] at h
        obtain ⟨joined, hjoin, -⟩ := exists_join ht hu (h.of_infix (List.prefix_append _ _).isInfix)
        obtain ⟨xs, hxs⟩ := ih hts (h.of_infix (List.suffix_append _ _).isInfix)
        exact ⟨joined :: xs, by simp [hjoin, hxs, bind, Except.bind, pure, Except.pure]⟩
  | case2 rs hrs => exact ⟨rs, rfl⟩

theorem exists_reduceRounds {rounds : Nat} {ts : List JoinTree} {rs : List SuccinctReceipt}
    (hts : Make ts rs) (hne : rs ≠ []) (h : Joinable (ts.flatMap leaves)) :
    ∃ x, reduceRounds rounds rs = .ok x := by
  induction rounds generalizing ts rs with
  | zero =>
    cases hts with
    | nil => exact absurd rfl hne
    | @cons t r ts rs ht hts => exact ⟨r, rfl⟩
  | succ rounds ih =>
    obtain ⟨xs, hxs⟩ := exists_pairUpM hts h
    obtain ⟨ts', hmake, hleaves, hlen⟩ := exists_of_pairUpM hts hxs
    have hne' : xs ≠ [] := by
      rintro rfl
      have := List.length_pos_iff.mpr hne
      rw [List.length_nil] at hlen
      omega
    obtain ⟨x, hx⟩ := ih hmake hne' (hleaves ▸ h)
    exact ⟨x, bind_eq_ok_iff.mpr ⟨xs, hxs, hx⟩⟩

/-- Both strategies make a receipt of the receipts of trees over a chain. -/
theorem exists_reduce {ts : List JoinTree} {rs : List SuccinctReceipt} (hts : Make ts rs)
    (hne : rs ≠ []) (h : Joinable (ts.flatMap leaves)) (strategy : ReductionStrategy) :
    ∃ x, reduce strategy rs = .ok x := by
  cases hts with
  | nil => exact absurd rfl hne
  | @cons t r ts rs ht hts =>
    cases strategy with
    | fold => exact exists_reduceFold ht hts h
    | tree => exact exists_reduceRounds (.cons ht hts) hne h

end JoinTree

namespace SegmentReceipt

/-- Receipts that can be lifted one by one can be lifted as a list. -/
theorem exists_mapM_lift {leaves : List SegmentReceipt}
    (h : ∀ leaf ∈ leaves, ∃ r, leaf.lift = .ok r) : ∃ rs, leaves.mapM lift = .ok rs := by
  induction leaves with
  | nil => exact ⟨[], rfl⟩
  | cons leaf leaves ih =>
    obtain ⟨r, hr⟩ := h leaf List.mem_cons_self
    obtain ⟨rs, hrs⟩ := ih fun leaf hleaf => h leaf (List.mem_cons_of_mem _ hleaf)
    exact ⟨r :: rs, mapM_eq_ok_iff.mpr (.cons hr (mapM_eq_ok_iff.mp hrs))⟩

/-- Joinable receipts are lifted and reduced under both strategies. -/
theorem exists_lift_reduce {leaves : List SegmentReceipt} (h : Joinable leaves) (hne : leaves ≠ [])
    (strategy : ReductionStrategy) :
    ∃ rs r, leaves.mapM lift = .ok rs ∧ SuccinctReceipt.reduce strategy rs = .ok r := by
  obtain ⟨rs, hrs⟩ := exists_mapM_lift h.lifted
  have hmake := JoinTree.make_of_mapM_lift hrs
  have hleaves : (leaves.map JoinTree.leaf).flatMap JoinTree.leaves = leaves := by
    rw [List.flatMap_map]
    exact List.flatMap_singleton' leaves
  have hlen := hmake.length_eq
  obtain ⟨r, hr⟩ := JoinTree.exists_reduce hmake
    (by rintro rfl; exact hne (List.length_eq_zero_iff.mp (by simpa using hlen)))
    (hleaves.symm ▸ h) strategy
  exact ⟨rs, r, hrs, hr⟩

/-- Both strategies make a receipt of joinable receipts, which covers them and is accepted. -/
theorem exists_joinAll {leaves : List SegmentReceipt} (h : Joinable leaves) (hne : leaves ≠ [])
    (strategy : ReductionStrategy) :
    ∃ r, joinAll strategy leaves = .ok r ∧ r.Covers leaves ∧ r.verifyWith ⟨true⟩ = .ok () := by
  obtain ⟨rs, r, hrs, hr⟩ := exists_lift_reduce h hne strategy
  obtain ⟨t, htree, heval⟩ := JoinTree.exists_of_lift_reduce hrs hr
  obtain ⟨content, hcontent⟩ :=
    SuccinctReceipt.checkIntegrity_eq_ok_iff.mp (JoinTree.checkIntegrity_of_eval heval)
  refine ⟨r, ?_, htree ▸ JoinTree.covers_of_eval heval,
    SuccinctReceipt.verifyWith_of_checkedSeal hcontent⟩
  simp [joinAll, hne, hrs, hr, Except.mapError, bind, Except.bind]

end SegmentReceipt

end ReplayVM
