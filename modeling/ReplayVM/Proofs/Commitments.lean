import ReplayVM.Proofs.Preimages
import ReplayVM.Receipt.Compose

/-!
# Commitments are unambiguous

What is hashed for a commitment begins with a tag and goes on with fields, and neither the tag nor
the fields say how long they are. The bytes nevertheless tell what was committed to. No tag begins
another one, with the exception of that of the control ids, which begins the three other tags of
succinct receipts; but in a control id the tag is followed by the version of the programs, and in
the other tags by a dot. Behind the tag the fields of most kinds have fixed widths. Those of a row
do not: its optional parts stand behind a word that says whether they are there, and its paths
behind their length.

## Main definitions

* `Delimited`: values whose fields show where they end.
* `Commitment`: the hashed values, with a constructor for each kind of commitment.
* `Commitment.preimage`: what is hashed for them.

## Main results

* `Row.delimited`: the fields of a row show where they end.
* `Commitment.Kind.eq_of_heading_prefix`: what stands in front of the values tells the kind.
* `Commitment.bytes_eq_iff`: equal bytes are hashed for equal values of one kind only.
-/

namespace ReplayVM

/-! ### Values that show where they end -/

section Delimited

variable {α : Type} {fits : α → Prop} {fields : α → List Field}

/-- Values whose fields show where they end: where those of two values stand in front of the rest
of the same bytes, the values are the same. -/
def Delimited (fits : α → Prop) (fields : α → List Field) : Prop :=
  ∀ ⦃a b⦄, fits a → fits b → ∀ ⦃rest rest' : Bytes⦄,
    (fields a).flatMap Field.toBytes ++ rest = (fields b).flatMap Field.toBytes ++ rest' →
      a = b ∧ rest = rest'

namespace Delimited

/-- Values are delimited if the kinds of their fields do not depend on them. -/
theorem of_kinds (hkinds : ∀ a b, fits a → fits b →
      (fields a).map Field.kind = (fields b).map Field.kind)
    (hinj : ∀ a b, fields a = fields b → a = b) : Delimited fits fields := by
  intro a b ha hb rest rest' h
  have hk := hkinds a b ha hb
  obtain ⟨hfields, hrest⟩ := List.append_inj h (Field.length_flatMap_toBytes_eq hk)
  exact ⟨hinj a b (Field.flatMap_toBytes_inj hk hfields), hrest⟩

/-- The word in front of what may be missing tells whether it is there. -/
theorem optional_cases {o o' : Option α} {rest rest' : Bytes}
    (h : (optionalFields fields o).flatMap Field.toBytes ++ rest =
      (optionalFields fields o').flatMap Field.toBytes ++ rest') :
    (o = none ∧ o' = none ∧ rest = rest') ∨ ∃ a b, o = some a ∧ o' = some b ∧
      (fields a).flatMap Field.toBytes ++ rest = (fields b).flatMap Field.toBytes ++ rest' := by
  cases o with
  | none =>
    cases o' with
    | none => exact .inl ⟨rfl, rfl, List.append_cancel_left h⟩
    | some b =>
      have hword := (Bytes.ofWord_append_inj (v := 0) (w := 1)
        (by simpa [optionalFields, Field.toBytes] using h)).1
      exact absurd hword (by decide)
  | some a =>
    cases o' with
    | none =>
      have hword := (Bytes.ofWord_append_inj (v := 1) (w := 0)
        (by simpa [optionalFields, Field.toBytes] using h)).1
      exact absurd hword (by decide)
    | some b =>
      exact .inr ⟨a, b, rfl, rfl, by simpa [optionalFields, Field.toBytes] using h⟩

/-- What may be missing is delimited by the word in front of it. -/
theorem optional (h : Delimited fits fields) :
    Delimited (fun o => ∀ a ∈ o, fits a) (optionalFields fields) := by
  intro o o' ho ho' rest rest' hbytes
  obtain ⟨rfl, rfl, hrest⟩ | ⟨a, b, rfl, rfl, hvalues⟩ := optional_cases hbytes
  · exact ⟨rfl, hrest⟩
  · exact (h (ho a rfl) (ho' b rfl) hvalues).imp_left (congrArg some)

end Delimited

end Delimited

/-! ### Exits -/

theorem FaultReason.eq_of_words_eq {r r' : FaultReason} (h : r.words = r'.words) : r = r' := by
  cases r <;> cases r' <;> simp_all [words]

namespace ExitCode

theorem eq_of_words_eq {e e' : ExitCode} (h : e.words = e'.words) : e = e' := by
  cases e <;> cases e' <;> simp_all [words]
  exact FaultReason.eq_of_words_eq (Prod.ext h.1 (Prod.ext h.2.1 h.2.2))

/-- An exit is hashed as four words. -/
theorem map_kind_fields (e : ExitCode) : e.fields.map Field.kind = List.replicate 4 .word := by
  cases e <;> rfl

theorem eq_of_fields_eq {e e' : ExitCode} (h : e.fields = e'.fields) : e = e' :=
  eq_of_words_eq ((List.map_inj_right fun _ _ h => Field.word.inj h).mp h)

end ExitCode

/-! ### Rows -/

attribute [ext] FetchWitness DataWitness Row

/-- The number of siblings fits the word in front of them. -/
def MerklePath.FitsWord (p : MerklePath) : Prop := p.siblings.length < UInt32.size

/-- The numbers of siblings fit the words in front of them. -/
structure Row.FitsWords (r : Row) : Prop where
  fetch : ∀ f ∈ r.fetch, f.path.FitsWord
  data : ∀ d ∈ r.data, d.path.FitsWord

theorem SystemState.eq_of_fields_eq {s t : SystemState} (h : s.fields = t.fields) : s = t :=
  eq_of_bytes_eq (by rw [preimage, preimage, h])

theorem SystemState.delimited : Delimited (fun _ => True) SystemState.fields :=
  .of_kinds (fun s t _ _ => by rw [map_kind_fields, map_kind_fields]) fun _ _ => eq_of_fields_eq

theorem HostReply.delimited : Delimited (fun _ => True) HostReply.fields :=
  .of_kinds (fun _ _ _ _ => rfl) fun ⟨_, _⟩ ⟨_, _⟩ h => by simpa [fields] using h

theorem MerklePath.delimited : Delimited MerklePath.FitsWord MerklePath.fields := by
  intro p q hp hq rest rest' h
  -- The lengths are read first; the siblings behind them then have the same widths.
  simp only [fields, List.flatMap_cons, List.append_assoc, Field.toBytes] at h
  obtain ⟨hlen, hsiblings⟩ := Bytes.ofWord_append_inj h
  have hlength : p.siblings.length = q.siblings.length := by
    have := congrArg UInt32.toNat hlen
    simpa [Nat.mod_eq_of_lt hp, Nat.mod_eq_of_lt hq] using this
  have hkinds : (p.siblings.map Field.digest).map Field.kind =
      (q.siblings.map Field.digest).map Field.kind := by
    simp only [List.map_map, Function.comp_def, Field.kind, List.map_const', hlength]
  obtain ⟨hdigests, hrest⟩ :=
    List.append_inj hsiblings (Field.length_flatMap_toBytes_eq hkinds)
  have heq := Field.flatMap_toBytes_inj hkinds hdigests
  rcases p with ⟨siblings⟩
  rcases q with ⟨siblings'⟩
  obtain rfl := (List.map_inj_right fun _ _ h => Field.digest.inj h).mp heq
  exact ⟨rfl, hrest⟩

theorem FetchWitness.delimited :
    Delimited (fun f => f.path.FitsWord) FetchWitness.fields := by
  intro f g hf hg rest rest' h
  simp only [fields, List.flatMap_cons, List.append_assoc, Field.toBytes] at h
  obtain ⟨haddr, hbehind⟩ := Bytes.ofWord_append_inj h
  obtain ⟨hvalue, hbytes⟩ := Bytes.ofWord_append_inj hbehind
  obtain ⟨hpath, hrest⟩ := MerklePath.delimited hf hg hbytes
  exact ⟨FetchWitness.ext haddr hvalue hpath, hrest⟩

theorem DataWitness.delimited :
    Delimited (fun d => d.path.FitsWord) DataWitness.fields := by
  intro d e hd he rest rest' h
  simp only [fields, List.flatMap_cons, List.append_assoc, Field.toBytes] at h
  obtain ⟨haddr, hbehind⟩ := Bytes.ofWord_append_inj h
  obtain ⟨hold, hbehind'⟩ := Bytes.ofWord_append_inj hbehind
  obtain ⟨hnew, hbytes⟩ := Bytes.ofWord_append_inj hbehind'
  obtain ⟨hpath, hrest⟩ := MerklePath.delimited hd he hbytes
  exact ⟨DataWitness.ext haddr hold hnew hpath, hrest⟩

theorem Row.delimited : Delimited Row.FitsWords fun r => r.preimage.fields := by
  intro r r' hr hr' rest rest' h
  simp only [preimage, List.flatMap_append, List.append_assoc] at h
  obtain ⟨hstate, hbehind⟩ := SystemState.delimited trivial trivial h
  obtain ⟨hfetch, hbehind'⟩ := FetchWitness.delimited.optional hr.fetch hr'.fetch hbehind
  obtain ⟨hdata, hbytes⟩ := DataWitness.delimited.optional hr.data hr'.data hbehind'
  obtain ⟨hhost, hrest⟩ := HostReply.delimited.optional (fun _ _ => trivial) (fun _ _ => trivial)
    hbytes
  exact ⟨Row.ext hstate hfetch hdata hhost, hrest⟩

/-- The bytes hashed for a row determine it. -/
theorem Row.eq_of_bytes_eq {r r' : Row} (hr : r.FitsWords) (hr' : r'.FitsWords)
    (h : r.preimage.bytes = r'.preimage.bytes) : r = r' := by
  have hfields := List.append_cancel_left h
  exact (Row.delimited hr hr' (congrArg (· ++ []) hfields)).1

/-! ### Claims -/

/-- An exit and a digest behind it are told apart, since an exit is four words. -/
theorem ExitCode.fields_append_inj {e e' : ExitCode} {fs gs : List Field}
    (h : e.fields ++ fs = e'.fields ++ gs) : e = e' ∧ fs = gs :=
  (List.append_inj h (by cases e <;> cases e' <;> rfl)).imp_left eq_of_fields_eq

/-- The bytes hashed for a claim determine it. -/
theorem SegmentClaim.eq_of_bytes_eq {c c' : SegmentClaim}
    (h : c.preimage.bytes = c'.preimage.bytes) : c = c' := by
  have hfields : c.preimage.fields = c'.preimage.fields :=
    Preimage.fields_inj rfl (by simp [preimage, Field.kind, ExitCode.map_kind_fields]) h
  rcases c with ⟨config, index, start, stop, count, exit, output⟩
  rcases c' with ⟨config', index', start', stop', count', exit', output'⟩
  simp only [preimage, List.cons_append, List.nil_append, List.cons.injEq, Field.digest.injEq,
    Field.word.injEq] at hfields
  obtain ⟨rfl, rfl, rfl, rfl, rfl, hexit⟩ := hfields
  obtain ⟨rfl, houtput⟩ := ExitCode.fields_append_inj hexit
  obtain rfl : output = output' := by simpa using houtput
  rfl

/-- The bytes hashed for a claim determine it. -/
theorem SuccinctClaim.eq_of_bytes_eq {c c' : SuccinctClaim}
    (h : c.preimage.bytes = c'.preimage.bytes) : c = c' := by
  have hfields : c.preimage.fields = c'.preimage.fields :=
    Preimage.fields_inj rfl (by simp [preimage, Field.kind, ExitCode.map_kind_fields]) h
  rcases c with ⟨config, start, stop, ⟨exit, output⟩⟩
  rcases c' with ⟨config', start', stop', ⟨exit', output'⟩⟩
  simp only [preimage, List.cons_append, List.nil_append, List.cons.injEq, Field.digest.injEq]
    at hfields
  obtain ⟨rfl, rfl, rfl, hexit⟩ := hfields
  obtain ⟨rfl, houtput⟩ := ExitCode.fields_append_inj hexit
  obtain rfl : output = output' := by simpa using houtput
  rfl

/-! ### Control ids and bindings -/

namespace RecursionProgram

/-- The names of the programs are of one length. -/
theorem length_name (p : RecursionProgram) : (Bytes.ofString p.name).length = 4 := by
  cases p <;> rfl

theorem eq_of_name_eq {p q : RecursionProgram}
    (h : Bytes.ofString p.name = Bytes.ofString q.name) : p = q := by
  revert h
  cases p <;> cases q <;> decide

/-- The bytes hashed for a control id determine the program and the parameters. -/
theorem eq_of_bytes_eq {p q : RecursionProgram} {b c : RecursionBackend} {config config' : Digest}
    (h : (p.controlPreimage b config).bytes = (q.controlPreimage c config').bytes) :
    p = q ∧ b = c ∧ config = config' := by
  cases b
  cases c
  have hfields := Preimage.fields_inj (by rfl)
    (by simp [controlPreimage, Field.kind, length_name]) h
  simp only [controlPreimage, List.cons.injEq, Field.bytes.injEq, Field.digest.injEq, and_true,
    true_and] at hfields
  exact ⟨eq_of_name_eq hfields.1, rfl, hfields.2⟩

end RecursionProgram

/-- The bytes hashed for the binding of a seal determine all that is bound. -/
theorem RecursionSeal.eq_of_bytes_eq {s s' : RecursionSeal} {depth depth' : UInt32}
    {span span' : SegmentSpan}
    (h : (s.bindingPreimage depth span).bytes = (s'.bindingPreimage depth' span').bytes) :
    s = { s' with binding := s.binding } ∧ depth = depth' ∧ span = span' := by
  rcases s with ⟨⟨⟩, control, claim, inputs, binding⟩
  rcases s' with ⟨⟨⟩, control', claim', inputs', binding'⟩
  rcases span with ⟨first, count, cycles⟩
  rcases span' with ⟨first', count', cycles'⟩
  have hfields := Preimage.fields_inj (by rfl) (by rfl) h
  simp only [bindingPreimage, List.cons.injEq, Field.digest.injEq, Field.word.injEq,
    Field.long.injEq, and_true, true_and] at hfields
  obtain ⟨rfl, rfl, rfl, rfl, rfl, rfl, rfl⟩ := hfields
  exact ⟨rfl, rfl, rfl⟩

/-! ### All commitments -/

/-- The values that are hashed, by the kind of the commitment. -/
inductive Commitment where
  | config (p : Params)
  | state (s : SystemState)
  | row (r : Row)
  | segmentClaim (c : SegmentClaim)
  | succinctClaim (c : SuccinctClaim)
  /-- The name of a program under a backend and parameters. -/
  | control (program : RecursionProgram) (backend : RecursionBackend) (configDigest : Digest)
  /-- What binds the claim of a seal to the checked inputs. -/
  | binding (backend : RecursionBackend) (controlId claimDigest inputsDigest : Digest)
      (depth : UInt32) (span : SegmentSpan)
  /-- The checked input of a lift: a claim and its seal. -/
  | liftInputs (claimDigest sealDigest : Digest)
  /-- The checked inputs of a join: the claims and the bindings of both. -/
  | joinInputs (leftClaim leftBinding rightClaim rightBinding : Digest)

namespace Commitment

/-- A commitment whose paths fit the words in front of them. -/
def FitsWords : Commitment → Prop
  | .row r => r.FitsWords
  | _ => True

/-- What is hashed for a commitment. -/
def preimage : Commitment → Preimage
  | .config p => p.preimage
  | .state s => s.preimage
  | .row r => r.preimage
  | .segmentClaim c => c.preimage
  | .succinctClaim c => c.preimage
  | .control program backend configDigest => program.controlPreimage backend configDigest
  | .binding backend controlId claimDigest inputsDigest depth span =>
    RecursionSeal.bindingPreimage ⟨backend, controlId, claimDigest, inputsDigest, .zero⟩ depth span
  | .liftInputs claimDigest sealDigest =>
    ⟨"zkc.recursion.lift.inputs", [.digest claimDigest, .digest sealDigest]⟩
  | .joinInputs leftClaim leftBinding rightClaim rightBinding =>
    RecursionSeal.joinPreimage ⟨.development, .zero, leftClaim, .zero, leftBinding⟩
      ⟨.development, .zero, rightClaim, .zero, rightBinding⟩

/-- A binding binds all of a seal but itself, and the depth and the span. -/
theorem bindingPreimage_eq (s : RecursionSeal) (depth : UInt32) (span : SegmentSpan) :
    s.bindingPreimage depth span =
      (binding s.backend s.controlId s.claimDigest s.inputsDigest depth span).preimage :=
  rfl

/-- A lift commits to its input by the claim and the seal. -/
theorem liftPreimage_eq (r : SegmentReceipt) :
    r.liftPreimage = (liftInputs r.claim.digest r.sealDigest).preimage :=
  rfl

/-- A join commits to its inputs by their claims and bindings. -/
theorem joinPreimage_eq (left right : RecursionSeal) :
    left.joinPreimage right =
      (joinInputs left.claimDigest left.binding right.claimDigest right.binding).preimage :=
  rfl

/-- The kinds of commitments. -/
inductive Kind where
  | config
  | state
  | row
  | segmentClaim
  | succinctClaim
  | control
  | binding
  | liftInputs
  | joinInputs
  deriving DecidableEq

/-- The kind of a commitment. -/
def kind : Commitment → Kind
  | .config _ => .config
  | .state _ => .state
  | .row _ => .row
  | .segmentClaim _ => .segmentClaim
  | .succinctClaim _ => .succinctClaim
  | .control _ _ _ => .control
  | .binding _ _ _ _ _ _ => .binding
  | .liftInputs _ _ => .liftInputs
  | .joinInputs _ _ _ _ => .joinInputs

/-- What stands in front of the values: the tag, and the version of the programs in a control
id. -/
def Kind.heading : Kind → Bytes
  | .config => Bytes.ofString "zkc.config.v1"
  | .state => Bytes.ofString "zkc.state.v1"
  | .row => Bytes.ofString "zkc.row.v1"
  | .segmentClaim => Bytes.ofString "zkc.segment_claim.v1"
  | .succinctClaim => Bytes.ofString "zkc.succinct_claim.v1"
  | .control => Bytes.ofString "zkc.recursion" ++ Bytes.ofWord recursionVersion
  | .binding => Bytes.ofString "zkc.recursion.binding.v1"
  | .liftInputs => Bytes.ofString "zkc.recursion.lift.inputs"
  | .joinInputs => Bytes.ofString "zkc.recursion.join.inputs"

/-- No heading begins another one. -/
theorem Kind.eq_of_heading_prefix {k k' : Kind} (h : k.heading <+: k'.heading) : k = k' := by
  revert h
  cases k <;> cases k' <;> decide

theorem heading_prefix (x : Commitment) : x.kind.heading <+: x.preimage.bytes := by
  cases x with
  | control program backend configDigest =>
    simp only [kind, Kind.heading, preimage, Preimage.bytes, RecursionProgram.controlPreimage,
      List.flatMap_cons, Field.toBytes, List.prefix_append_right_inj, List.prefix_append]
  | _ => exact List.prefix_append _ _

/-- The bytes that are hashed tell the kind. -/
theorem kind_eq_of_bytes_eq {x y : Commitment} (h : x.preimage.bytes = y.preimage.bytes) :
    x.kind = y.kind := by
  have hx := x.heading_prefix
  have hy := y.heading_prefix
  rw [← h] at hy
  rcases List.prefix_or_prefix_of_prefix hx hy with hxy | hyx
  · exact Kind.eq_of_heading_prefix hxy
  · exact (Kind.eq_of_heading_prefix hyx).symm

/-- Commitments are unambiguous: where the lengths of paths fit the words in front of them, the same
bytes are hashed for two commitments only if both are of one kind and commit to the same values. -/
theorem bytes_eq_iff {x y : Commitment} (hx : x.FitsWords) (hy : y.FitsWords) :
    x.preimage.bytes = y.preimage.bytes ↔ x = y := by
  refine ⟨fun h => ?_, fun h => by rw [h]⟩
  have hkind := kind_eq_of_bytes_eq h
  cases x with
  | config p =>
    cases y with
    | config q =>
      exact congrArg config (Params.eq_of_bytes_eq h)
    | _ => cases hkind
  | state s =>
    cases y with
    | state t =>
      exact congrArg state (SystemState.eq_of_bytes_eq h)
    | _ => cases hkind
  | row r =>
    cases y with
    | row r' =>
      exact congrArg row (Row.eq_of_bytes_eq hx hy h)
    | _ => cases hkind
  | segmentClaim c =>
    cases y with
    | segmentClaim c' =>
      exact congrArg segmentClaim (SegmentClaim.eq_of_bytes_eq h)
    | _ => cases hkind
  | succinctClaim c =>
    cases y with
    | succinctClaim c' =>
      exact congrArg succinctClaim (SuccinctClaim.eq_of_bytes_eq h)
    | _ => cases hkind
  | control p b config =>
    cases y with
    | control q c config' =>
      obtain ⟨rfl, rfl, rfl⟩ := RecursionProgram.eq_of_bytes_eq h
      rfl
    | _ => cases hkind
  | binding =>
    cases y with
    | binding =>
      obtain ⟨hseal, rfl, rfl⟩ := RecursionSeal.eq_of_bytes_eq h
      cases hseal
      rfl
    | _ => cases hkind
  | liftInputs =>
    cases y with
    | liftInputs =>
      have hfields := Preimage.fields_inj (by rfl) (by rfl) h
      simpa [preimage] using hfields
    | _ => cases hkind
  | joinInputs =>
    cases y with
    | joinInputs =>
      have hfields := Preimage.fields_inj (by rfl) (by rfl) h
      simpa [preimage, RecursionSeal.joinPreimage] using hfields
    | _ => cases hkind

/-- A row in which a word is fetched. -/
def fetchingRow : Row where
  state := .of ⟨.start 0x1000, {}⟩ .zero
  fetch := some ⟨0x1000, 0x13, ⟨[.zero]⟩⟩

/-- A row in which the same word is loaded. -/
def loadingRow : Row where
  state := .of ⟨.start 0x1000, {}⟩ .zero
  data := some ⟨0x1000, 0x13, 0x13, ⟨[.zero]⟩⟩

/-- What is hashed shows whether a word was fetched or loaded. -/
theorem bytes_ne_loadingRow :
    (row fetchingRow).FitsWords ∧ (row loadingRow).FitsWords ∧
      (row fetchingRow).preimage.bytes ≠ (row loadingRow).preimage.bytes := by
  have hfetching : (row fetchingRow).FitsWords :=
    ⟨by simp [fetchingRow, MerklePath.FitsWord, UInt32.size], by simp [fetchingRow]⟩
  have hloading : (row loadingRow).FitsWords :=
    ⟨by simp [loadingRow], by simp [loadingRow, MerklePath.FitsWord, UInt32.size]⟩
  have hne : row fetchingRow ≠ row loadingRow := by simp [fetchingRow, loadingRow]
  exact ⟨hfetching, hloading, mt (bytes_eq_iff hfetching hloading).mp hne⟩

end Commitment

end ReplayVM
