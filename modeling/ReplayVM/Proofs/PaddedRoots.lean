import Mathlib.Algebra.Ring.Nat
import ReplayVM.Proofs.HashEvaluation
import ReplayVM.Proofs.TraceRoots

/-!
# Roots over padded leaves

The root of a trace is made in a loop: as long as more than one digest is left, neighbours are
hashed, and a digest without a partner would be a fault. Padding makes this safe. The number of
leaves is a power of two, so all levels but the last have an even length, and the loop ends with one
digest after as many rounds as the padded leaves have halvings. What it leaves is the root of the
full tree over the padded leaves, the hash of the roots of its two halves.

## Main definitions

* `TraceRoot.pairUp?`, `TraceRoot.LeadsTo`: the loop, in which every digest needs a partner.
* `TraceRoot.fullRoot`: the root of a full tree, by halves.

## Main results

* `TraceRoot.leadsTo_padded_iff`: the loop over padded leaves ends, with their root.
* `TraceRoot.climb_eq_fullRoot`: level by level and by halves, a full tree has one root.
* `TraceRoot.binds_of_known_length`: both for every list of leaves, which the root binds together
  with their number.
-/

namespace ReplayVM

namespace TraceRoot

open Pairing

variable {ds es : List Digest}

/-! ### The loop -/

/-- One round over digests that all have a partner. -/
def pairUp? : List Digest → Option (List Digest)
  | [] => some []
  | [_] => none
  | a :: b :: ds => (pairUp? ds).map (Digest.hashPair a b :: ·)

/-- As long as more than one digest is left, a round takes place in which each has a partner; in the
end one digest is left. -/
inductive LeadsTo : List Digest → Digest → Prop where
  | single (d : Digest) : LeadsTo [d] d
  | round {ds es : List Digest} {root : Digest} (hmany : 1 < ds.length)
      (hround : pairUp? ds = some es) (hrest : LeadsTo es root) : LeadsTo ds root

/-- In a level of even length every digest has a partner. -/
theorem pairUp?_eq : ∀ {ds : List Digest}, ds.length % 2 = 0 →
    pairUp? ds = some (pairUp Digest.hashPair ds)
  | [], _ => rfl
  | [_], heven => nomatch heven
  | a :: b :: ds, heven => by
    simp only [List.length_cons] at heven
    rw [pairUp?, pairUp?_eq (by omega), pairUp, Option.map_some]

/-- The loop goes one way only. -/
theorem LeadsTo.unique {d e : Digest} (hd : LeadsTo ds d) (he : LeadsTo ds e) : d = e := by
  induction hd with
  | single d =>
    cases he with
    | single => rfl
    | round hmany => simp at hmany
  | round hmany hround _ ih =>
    cases he with
    | single => simp at hmany
    | round _ hround' hrest' =>
      obtain rfl := Option.some.inj (hround.symm.trans hround')
      exact ih hrest'

/-- The loop over a full level climbs to the top of the tree. -/
theorem leadsTo_climb {height : Nat} (h : ds.length = 1 <<< height) :
    LeadsTo ds (climb height ds) := by
  induction height generalizing ds with
  | zero =>
    obtain ⟨d, rfl⟩ := List.length_eq_one_iff.mp h
    exact .single d
  | succ height ih =>
    have hpos := shiftLeft_pos height
    rw [Nat.shiftLeft_succ] at h
    have hhalf : (pairUp Digest.hashPair ds).length = 1 <<< height := by
      rw [length_pairUp, h]
      omega
    exact .round (by omega) (pairUp?_eq (by omega)) (ih hhalf)

/-- The loop over the padded leaves ends, and leaves their root. -/
theorem leadsTo_padded_iff (leaves : List Digest) (root : Digest) :
    LeadsTo (padded leaves) root ↔ root = traceRoot leaves := by
  have hroot : LeadsTo (padded leaves) (traceRoot leaves) := leadsTo_climb (length_padded leaves)
  constructor
  · exact fun h => h.unique hroot
  · rintro rfl
    exact hroot

/-! ### The tree -/

/-- The root of a full tree of the given height: the hash of the roots of its halves. -/
def fullRoot : (height : Nat) → List Digest → Digest
  | 0, ds => ds.headD .zero
  | height + 1, ds => Digest.hashPair (fullRoot height (ds.take (2 ^ height)))
      (fullRoot height (ds.drop (2 ^ height)))

/-- Two full levels side by side have the hash of both tops above them. -/
theorem climb_append {height : Nat} (hds : ds.length = 2 ^ height) (hes : es.length = 2 ^ height) :
    climb (height + 1) (ds ++ es) = Digest.hashPair (climb height ds) (climb height es) := by
  induction height generalizing ds es with
  | zero =>
    obtain ⟨d, rfl⟩ := List.length_eq_one_iff.mp hds
    obtain ⟨e, rfl⟩ := List.length_eq_one_iff.mp hes
    rfl
  | succ height ih =>
    -- each half has an even length, so no pair of the round lies across both
    rw [Nat.pow_succ] at hds hes
    rw [climb, pairUp_append _ _ _ (by omega)]
    exact ih (by rw [length_pairUp]; omega) (by rw [length_pairUp]; omega)

/-- Level by level and by halves, a full tree has one root. -/
theorem climb_eq_fullRoot {height : Nat} (h : ds.length = 2 ^ height) :
    climb height ds = fullRoot height ds := by
  induction height generalizing ds with
  | zero => rfl
  | succ height ih =>
    rw [Nat.pow_succ] at h
    have hleft : (ds.take (2 ^ height)).length = 2 ^ height := by
      rw [List.length_take]
      omega
    have hright : (ds.drop (2 ^ height)).length = 2 ^ height := by
      rw [List.length_drop]
      omega
    calc climb (height + 1) ds
        = climb (height + 1) (ds.take (2 ^ height) ++ ds.drop (2 ^ height)) := by
          rw [List.take_append_drop]
      _ = Digest.hashPair (climb height (ds.take (2 ^ height)))
            (climb height (ds.drop (2 ^ height))) := climb_append hleft hright
      _ = fullRoot (height + 1) ds := by rw [ih hleft, ih hright, fullRoot]

/-! ### Leaves of a known number -/

/-- The leaves are padded to the least power of two that is not below their number. -/
theorem padded_eq (leaves : List Digest) : padded leaves =
    leaves ++ List.replicate (2 ^ Nat.clog 2 leaves.length - leaves.length) .zero := by
  rw [padded, Nat.one_shiftLeft, rounds_eq_clog]

/-- The root of a trace is that of the full tree over the leaves and zero digests behind them, up to
the next power of two: the loop that makes it comes to its end with every digest having had a
partner, and hashing the halves of the tree gives the same. Without leaves it is the zero digest,
over one leaf this leaf. Together with their number it binds the leaves, if nothing that is hashed
collides. -/
theorem binds_of_known_length (leaves : List Digest) :
    padded leaves =
      leaves ++ List.replicate (2 ^ Nat.clog 2 leaves.length - leaves.length) .zero ∧
    (∀ root, LeadsTo (padded leaves) root ↔ root = traceRoot leaves) ∧
    traceRoot leaves = fullRoot (Nat.clog 2 leaves.length) (padded leaves) ∧
    traceRoot [] = .zero ∧ (∀ d, traceRoot [d] = d) ∧
    ∀ others : List Digest, others.length = leaves.length →
      CollisionFree (fun x => x ∈ messages leaves ∨ x ∈ messages others) →
      traceRoot others = traceRoot leaves → others = leaves := by
  refine ⟨padded_eq leaves, leadsTo_padded_iff leaves, ?_, rfl, fun _ => rfl, ?_⟩
  · have hlen := length_padded leaves
    rw [Nat.one_shiftLeft, rounds_eq_clog] at hlen
    rw [traceRoot, rounds_eq_clog, climb_eq_fullRoot hlen]
  · intro others hlen hfree hroot
    exact eq_of_traceRoot_eq hfree hlen (fun x hx => .inr hx) (fun x hx => .inl hx) hroot

/-! ### A row that is changed -/

namespace ChangedRow

/-- A digest of equal bytes. -/
def digest (byte : UInt8) : Digest := ⟨Vector.replicate 32 byte⟩

/-- Three leaves, the last of which may be changed. -/
def leaves (last : UInt8) : List Digest := [digest 1, digest 2, digest last]

/-- What is hashed for the leaves, on numbers. -/
def hashed (last : UInt8) : List Bytes :=
  let front := Digest.pairBytes (digest 1) (digest 2)
  let back := Digest.pairBytes (digest last) .zero
  [front, back, Digest.pairBytes (Digest.evaluate front) (Digest.evaluate back)]

theorem messages_leaves (last : UInt8) : messages (leaves last) = hashed last := by
  have hrounds : rounds (leaves last).length = 2 := show rounds 3 = 2 by decide +kernel
  rw [hashed, ← Digest.hash_eq_evaluate, messages, padded, hrounds]
  rfl

theorem collisionFree_messages :
    CollisionFree fun x => x ∈ messages (leaves 3) ∨ x ∈ messages (leaves 4) := by
  have hfree : CollisionFree fun x => x ∈ hashed 3 ++ (hashed 4).drop 1 :=
    .of_nodup (by decide +kernel)
  simp only [messages_leaves]
  refine hfree.mono fun x hx => ?_
  -- both lists begin with the pair of the two leaves that stay
  simpa [hashed, or_assoc, or_left_comm] using hx

end ChangedRow

open ChangedRow in
/-- Nothing that is hashed for three leaves and for three others with another last one collides, and
their roots differ. -/
theorem binds_of_known_length_changed :
    (leaves 4).length = (leaves 3).length ∧
    CollisionFree (fun x => x ∈ messages (leaves 3) ∨ x ∈ messages (leaves 4)) ∧
    traceRoot (leaves 4) ≠ traceRoot (leaves 3) := by
  obtain ⟨-, -, -, -, -, hbinds⟩ := binds_of_known_length (leaves 3)
  refine ⟨rfl, collisionFree_messages, fun hroot => ?_⟩
  have hsame := hbinds (leaves 4) rfl collisionFree_messages hroot
  exact absurd hsame (by decide)

end TraceRoot

end ReplayVM
