import Mathlib.Tactic.Common
import ReplayVM.Machine
import ReplayVM.Params

/-!
# What a commitment binds

A commitment is a hash, so it binds its preimage only as far as no two of the byte strings that are
hashed collide. Collision-freeness is therefore always stated of a class of byte strings: those that
occur in the computation at hand. Below the hash, the bytes of a preimage determine its fields as
soon as the kinds of the fields are known, because the fields of one kind have one width.

## Main definitions

* `CollisionFree`: no two byte strings of a class have the same hash.
* `FieldKind`, `Field.kind`: what is known of a field before its value is read.

## Main results

* `Field.flatMap_toBytes_inj`: fields of known kinds are determined by their bytes.
* `SystemState.eq_of_commitment_eq`, `Params.eq_of_configDigest_eq`: commitments determine states
  and parameters.
-/

namespace ReplayVM

/-- No two distinct byte strings of a class have the same hash. -/
def CollisionFree (hashed : Bytes → Prop) : Prop :=
  ∀ x y, hashed x → hashed y → Digest.hash x = Digest.hash y → x = y

/-- A smaller class has no more collisions. -/
theorem CollisionFree.mono {hashed hashed' : Bytes → Prop} (h : CollisionFree hashed)
    (hsub : ∀ x, hashed' x → hashed x) : CollisionFree hashed' :=
  fun x y hx hy hxy => h x y (hsub x hx) (hsub y hy) hxy

/-! ### Injective encodings -/

theorem Bytes.ofWord_inj {v w : UInt32} : Bytes.ofWord v = Bytes.ofWord w ↔ v = w := by
  constructor
  · intro h
    rw [← Bytes.toWord_ofWord v, h, Bytes.toWord_ofWord]
  · rintro rfl
    rfl

theorem Bytes.ofWord_append_inj {v w : UInt32} {rest rest' : Bytes}
    (h : Bytes.ofWord v ++ rest = Bytes.ofWord w ++ rest') : v = w ∧ rest = rest' :=
  (List.append_inj h (by simp)).imp_left Bytes.ofWord_inj.mp

theorem Bytes.le_inj {width m n : Nat} (hm : m < 1 <<< (8 * width)) (hn : n < 1 <<< (8 * width))
    (h : Bytes.le width m = Bytes.le width n) : m = n := by
  rw [← Bytes.leValue_le hm, h, Bytes.leValue_le hn]

namespace Digest

@[simp] theorem length_pairBytes (left right : Digest) : (pairBytes left right).length = 64 := by
  simp [pairBytes]

theorem pairBytes_inj {a b c d : Digest} : pairBytes a b = pairBytes c d ↔ a = c ∧ b = d := by
  constructor
  · intro h
    obtain ⟨hl, hr⟩ := List.append_inj h (by simp)
    exact ⟨toBytes_inj.mp hl, toBytes_inj.mp hr⟩
  · rintro ⟨rfl, rfl⟩
    rfl

end Digest

/-! ### Fields -/

/-- What is known of a field before its value is read. -/
inductive FieldKind where
  | word
  | long
  | digest
  | bytes (length : Nat)
  deriving DecidableEq

namespace Field

/-- The kind of a field. -/
def kind : Field → FieldKind
  | .word _ => .word
  | .long _ => .long
  | .digest _ => .digest
  | .bytes value => .bytes value.length

/-- Fields of one kind have one width. -/
theorem length_toBytes_eq {f g : Field} (h : f.kind = g.kind) :
    f.toBytes.length = g.toBytes.length := by
  cases f <;> cases g <;> simp_all [kind, toBytes]

/-- Fields of one kind are determined by their bytes. -/
theorem eq_of_toBytes_eq {f g : Field} (hk : f.kind = g.kind) (h : f.toBytes = g.toBytes) :
    f = g := by
  cases f with
  | word v =>
    cases g with
    | word w => exact congrArg word (Bytes.ofWord_inj.mp h)
    | _ => simp [kind] at hk
  | long v =>
    cases g with
    | long w =>
      have hvw := Bytes.le_inj (by simpa using v.toNat_lt) (by simpa using w.toNat_lt) h
      exact congrArg long (UInt64.toNat_inj.mp hvw)
    | _ => simp [kind] at hk
  | digest d =>
    cases g with
    | digest e => exact congrArg digest (Digest.toBytes_inj.mp h)
    | _ => simp [kind] at hk
  | bytes v =>
    cases g with
    | bytes w => exact congrArg bytes h
    | _ => simp [kind] at hk

/-- Rows of fields of the same kinds have one width. -/
theorem length_flatMap_toBytes_eq {fs gs : List Field} (hk : fs.map kind = gs.map kind) :
    (fs.flatMap toBytes).length = (gs.flatMap toBytes).length := by
  induction fs generalizing gs with
  | nil =>
    obtain rfl := List.map_eq_nil_iff.mp hk.symm
    rfl
  | cons f fs ih =>
    obtain ⟨g, gs, rfl, hfg, hrest⟩ := List.map_eq_cons_iff.mp hk.symm
    rw [List.flatMap_cons, List.flatMap_cons, List.length_append, List.length_append,
      length_toBytes_eq hfg, ih hrest.symm]

/-- Fields in a row are determined by their kinds and their bytes. -/
theorem flatMap_toBytes_inj {fs gs : List Field} (hk : fs.map kind = gs.map kind)
    (h : fs.flatMap toBytes = gs.flatMap toBytes) : fs = gs := by
  induction fs generalizing gs with
  | nil =>
    cases gs with
    | nil => rfl
    | cons g gs => simp at hk
  | cons f fs ih =>
    cases gs with
    | nil => simp at hk
    | cons g gs =>
      simp only [List.map_cons, List.cons.injEq] at hk
      simp only [List.flatMap_cons] at h
      obtain ⟨hf, hfs⟩ := List.append_inj h (length_toBytes_eq hk.1)
      rw [eq_of_toBytes_eq hk.1 hf, ih hk.2 hfs]

end Field

/-- Preimages with one tag and fields of the same kinds are determined by their bytes. -/
theorem Preimage.fields_inj {p q : Preimage} (ht : p.tag = q.tag)
    (hk : p.fields.map Field.kind = q.fields.map Field.kind) (h : p.bytes = q.bytes) :
    p.fields = q.fields := by
  simp only [bytes, ht] at h
  exact Field.flatMap_toBytes_inj hk (List.append_cancel_left h)

/-! ### States and parameters -/

namespace SystemState

/-- The kinds of the fields of a state do not depend on the state. -/
theorem map_kind_fields (s : SystemState) : s.fields.map Field.kind =
    .word :: List.replicate 32 .word ++ [.digest, .word, .digest] := by
  have h : s.regs.toList.map (Field.kind ∘ Field.word) = List.replicate 32 .word := by
    rw [List.eq_replicate_iff]
    refine ⟨by simp, fun k hk => ?_⟩
    obtain ⟨w, -, rfl⟩ := List.mem_map.mp hk
    rfl
  simp [fields, Field.kind, h]

/-- The bytes hashed for a state determine it. -/
theorem eq_of_bytes_eq {s t : SystemState} (h : s.preimage.bytes = t.preimage.bytes) : s = t := by
  have hf : s.fields = t.fields := Preimage.fields_inj (p := s.preimage) (q := t.preimage) rfl
    (by simp only [preimage, map_kind_fields]) h
  rcases s with ⟨pc, regs, root, len, digest⟩
  rcases t with ⟨pc', regs', root', len', digest'⟩
  simp only [fields, List.cons_append, List.cons.injEq, Field.word.injEq] at hf
  obtain ⟨hpc, hrest⟩ := hf
  obtain ⟨hregs, htail⟩ := List.append_inj hrest (by simp)
  have hregs' : regs.toList = regs'.toList :=
    (List.map_inj_right fun _ _ h => Field.word.inj h).mp hregs
  simp only [List.cons.injEq, Field.digest.injEq, Field.word.injEq, and_true] at htail
  obtain ⟨hroot, hlen, hdigest⟩ := htail
  rw [hpc, Vector.toList_inj.mp hregs', hroot, hlen, hdigest]

/-- States with one commitment are equal, unless what is hashed for them collides. -/
theorem eq_of_commitment_eq {hashed : Bytes → Prop} (hfree : CollisionFree hashed)
    {s t : SystemState} (hs : hashed s.preimage.bytes) (ht : hashed t.preimage.bytes)
    (h : s.commitment = t.commitment) : s = t :=
  eq_of_bytes_eq (hfree _ _ hs ht h)

/-- A state is the state of its own registers and journal over its own root. -/
@[simp] theorem of_machine (s : SystemState) : of s.machine s.memoryRoot = s := rfl

@[simp] theorem machine_of (m : Machine) (root : Digest) : (of m root).machine = m := rfl

@[simp] theorem memoryRoot_of (m : Machine) (root : Digest) : (of m root).memoryRoot = root := rfl

end SystemState

namespace Params

/-- The bytes hashed for parameters determine them. -/
theorem eq_of_bytes_eq {p q : Params} (h : p.preimage.bytes = q.preimage.bytes) : p = q := by
  have hf : p.preimage.fields = q.preimage.fields := Preimage.fields_inj rfl rfl h
  rcases p with ⟨a, b, c, d, e⟩
  rcases q with ⟨a', b', c', d', e'⟩
  simpa [preimage] using hf

/-- Parameters with one commitment are equal, unless what is hashed for them collides. -/
theorem eq_of_configDigest_eq {hashed : Bytes → Prop} (hfree : CollisionFree hashed)
    {p q : Params} (hp : hashed p.preimage.bytes) (hq : hashed q.preimage.bytes)
    (h : p.configDigest = q.configDigest) : p = q :=
  eq_of_bytes_eq (hfree _ _ hp hq h)

end Params

end ReplayVM
