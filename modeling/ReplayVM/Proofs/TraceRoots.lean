import ReplayVM.Proofs.PairingRounds
import ReplayVM.Proofs.Preimages
import ReplayVM.Witness.Root

/-!
# What a trace root binds

The root over some leaves is reached by pairing up the digests of a full tree level by level. A
level is bound by the one above it as far as the pairs that are hashed in it do not collide. The
leaves are bound by the root together with their number: with another number of leaves, padding
could be taken for leaves.

## Main definitions

* `TraceRoot.pairs`, `TraceRoot.messages`: what is hashed in one level, and in all of them.

## Main results

* `TraceRoot.pairUp_inj`, `TraceRoot.climb_inj`: a level and a root bind what is below them.
* `TraceRoot.eq_of_traceRoot_eq`: a root binds a list of leaves of known length.
-/

namespace ReplayVM

namespace TraceRoot

open Pairing

/-- What is hashed to combine the digests of a level two by two. -/
def pairs : List Digest → List Bytes
  | a :: b :: ds => Digest.pairBytes a b :: pairs ds
  | _ => []

/-- What is hashed on the way to the top of a tree of the given height. -/
def climbMessages : (height : Nat) → List Digest → List Bytes
  | 0, _ => []
  | height + 1, ds => pairs ds ++ climbMessages height (pairUp Digest.hashPair ds)

/-- What is hashed for the root over some leaves. -/
def messages (leaves : List Digest) : List Bytes :=
  climbMessages (rounds leaves.length) (padded leaves)

variable {hashed : Bytes → Prop} {ds es : List Digest}

/-- Two levels of the same length with nothing left over are equal if the levels above them are,
unless what is hashed for them collides. -/
theorem pairUp_inj (hfree : CollisionFree hashed) : ∀ {ds es : List Digest},
    ds.length = es.length → ds.length % 2 = 0 → (∀ x ∈ pairs ds, hashed x) →
    (∀ x ∈ pairs es, hashed x) → pairUp Digest.hashPair ds = pairUp Digest.hashPair es → ds = es
  | [], [], _, _, _, _, _ => rfl
  | [], _ :: _, hlen, _, _, _, _ => nomatch hlen
  | [_], _, _, heven, _, _, _ => nomatch heven
  | _ :: _ :: _, [], hlen, _, _, _, _ => nomatch hlen
  | _ :: _ :: _, [_], hlen, _, _, _, _ => nomatch hlen
  | a :: b :: ds, c :: d :: es, hlen, heven, hds, hes, h => by
    simp only [pairs, List.forall_mem_cons] at hds hes
    simp only [pairUp, List.cons.injEq] at h
    obtain ⟨rfl, rfl⟩ := Digest.pairBytes_inj.mp (hfree _ _ hds.1 hes.1 h.1)
    simp only [List.length_cons] at hlen heven
    rw [pairUp_inj hfree (by omega) (by omega) hds.2 hes.2 h.2]

/-- Two full levels are equal if the digests at the top above them are, unless what is hashed on the
way collides. -/
theorem climb_inj (hfree : CollisionFree hashed) {height : Nat} (hds : ds.length = 1 <<< height)
    (hes : es.length = 1 <<< height) (hhashed : ∀ x ∈ climbMessages height ds, hashed x)
    (hhashed' : ∀ x ∈ climbMessages height es, hashed x) (h : climb height ds = climb height es) :
    ds = es := by
  induction height generalizing ds es with
  | zero =>
    obtain ⟨d, rfl⟩ := List.length_eq_one_iff.mp hds
    obtain ⟨e, rfl⟩ := List.length_eq_one_iff.mp hes
    exact congrArg ([·]) h
  | succ height ih =>
    simp only [climbMessages, List.forall_mem_append] at hhashed hhashed'
    rw [Nat.shiftLeft_succ] at hds hes
    have hhalf (fs : List Digest) (hfs : fs.length = 2 * 1 <<< height) :
        (pairUp Digest.hashPair fs).length = 1 <<< height := by
      rw [length_pairUp, hfs]
      omega
    have habove := ih (hhalf ds hds) (hhalf es hes) hhashed.2 hhashed'.2 h
    exact pairUp_inj hfree (hds.trans hes.symm) (by omega) hhashed.1 hhashed'.1 habove

/-- Two lists of leaves of the same length are equal if their roots are, unless what is hashed for
them collides. -/
theorem eq_of_traceRoot_eq (hfree : CollisionFree hashed) (hlen : ds.length = es.length)
    (hds : ∀ x ∈ messages ds, hashed x) (hes : ∀ x ∈ messages es, hashed x)
    (h : traceRoot ds = traceRoot es) : ds = es := by
  rw [messages, ← hlen] at hes
  rw [traceRoot, traceRoot, ← hlen] at h
  have hfull : (padded es).length = 1 <<< rounds ds.length := by
    rw [length_padded, hlen]
  have hpadded := climb_inj hfree (length_padded ds) hfull hds hes h
  exact (List.append_inj hpadded hlen).1

end TraceRoot

end ReplayVM
