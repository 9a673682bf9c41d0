import Mathlib.Data.List.Nodup
import ReplayVM.Proofs.MerklePaths

/-!
# Evaluating hashes

A proof about concrete byte strings may have to evaluate their hashes, and evaluation by reduction
is slow where a word is a number modulo a power of two that is looked at again and again. Here the
same function is written on natural numbers, each of which is evaluated before it is used.

## Main definitions

* `Sha256.strictly`: a function of a number that is evaluated first.
* `Sha256.Chain`, `Sha256.Chain.bytes`: the chaining words as numbers.
* `Digest.evaluate`: the hash of a byte string, on numbers.
* `Merkle.evaluateZeros`, `MerklePath.evaluateClimb`: what is hashed in a tree, on numbers.

## Main results

* `Digest.hash_eq_evaluate`: it is the hash.
* `CollisionFree.of_nodup`: byte strings do not collide if the first words of their hashes differ.
-/

namespace ReplayVM

namespace Sha256

/-- The value of a function at a number, which is evaluated first. -/
def strictly {α : Type} (n : Nat) (f : Nat → α) : α :=
  match n with
  | 0 => f 0
  | k + 1 => f (Nat.succ k)

@[simp] theorem strictly_eq {α : Type} (n : Nat) (f : Nat → α) : strictly n f = f n := by
  cases n <;> rfl

/-! ### Words as numbers -/

/-- The sum of words as a word. -/
def wrap (n : Nat) : Nat := n % 4294967296

/-- Rotation to the right by `n` bits. -/
def rotate (w n : Nat) : Nat := w >>> n ||| wrap (w <<< (32 - n))

theorem toNat_rotr {w n : UInt32} (h : 0 < n.toNat ∧ n.toNat < 32) :
    (rotr w n).toNat = rotate w.toNat n.toNat := by
  have h32 : (32 : UInt32).toNat = 32 := rfl
  have hsub : (32 - n).toNat = 32 - n.toNat :=
    UInt32.toNat_sub_of_le _ _ (UInt32.le_iff_toNat_le.mpr (by omega))
  rw [rotr, UInt32.toNat_or, UInt32.toNat_shiftRight, UInt32.toNat_shiftLeft, hsub,
    Nat.mod_eq_of_lt h.2, Nat.mod_eq_of_lt (a := 32 - n.toNat) (by omega), rotate, wrap]

def small0 (w : Nat) : Nat := rotate w 7 ^^^ rotate w 18 ^^^ (w >>> 3)

def small1 (w : Nat) : Nat := rotate w 17 ^^^ rotate w 19 ^^^ (w >>> 10)

theorem toNat_sigma0 (w : UInt32) : (sigma0 w).toNat = small0 w.toNat := by
  have h7 : (rotr w 7).toNat = rotate w.toNat 7 := toNat_rotr (by decide)
  have h18 : (rotr w 18).toNat = rotate w.toNat 18 := toNat_rotr (by decide)
  rw [sigma0, small0, UInt32.toNat_xor, UInt32.toNat_xor, h7, h18, UInt32.toNat_shiftRight]
  rfl

theorem toNat_sigma1 (w : UInt32) : (sigma1 w).toNat = small1 w.toNat := by
  have h17 : (rotr w 17).toNat = rotate w.toNat 17 := toNat_rotr (by decide)
  have h19 : (rotr w 19).toNat = rotate w.toNat 19 := toNat_rotr (by decide)
  rw [sigma1, small1, UInt32.toNat_xor, UInt32.toNat_xor, h17, h19, UInt32.toNat_shiftRight]
  rfl

/-- The part of a round that enters both new words. -/
def temp (e f g h k w : Nat) : Nat :=
  wrap (h + (rotate e 6 ^^^ rotate e 11 ^^^ rotate e 25) +
    (e &&& f ^^^ (4294967295 - e) &&& g) + k + w)

/-- The part of a round that enters the first new word only. -/
def front (a b c : Nat) : Nat :=
  (rotate a 2 ^^^ rotate a 13 ^^^ rotate a 22) + ((a &&& b) ^^^ (a &&& c) ^^^ (b &&& c))

/-- The chaining words as numbers. -/
structure Chain where
  a : Nat
  b : Nat
  c : Nat
  d : Nat
  e : Nat
  f : Nat
  g : Nat
  h : Nat

/-- The chaining words as numbers. -/
def State.chain (s : State) : Chain :=
  ⟨s.a.toNat, s.b.toNat, s.c.toNat, s.d.toNat, s.e.toNat, s.f.toNat, s.g.toNat, s.h.toNat⟩

namespace State

/-- The part of a round that enters both new words. -/
def temp (s : State) (k w : UInt32) : UInt32 :=
  s.h + (rotr s.e 6 ^^^ rotr s.e 11 ^^^ rotr s.e 25) + ((s.e &&& s.f) ^^^ (~~~s.e &&& s.g)) + k + w

theorem toNat_temp (s : State) (k w : UInt32) : (s.temp k w).toNat =
    Sha256.temp s.e.toNat s.f.toNat s.g.toNat s.h.toNat k.toNat w.toNat := by
  have h6 : (rotr s.e 6).toNat = rotate s.e.toNat 6 := toNat_rotr (by decide)
  have h11 : (rotr s.e 11).toNat = rotate s.e.toNat 11 := toNat_rotr (by decide)
  have h25 : (rotr s.e 25).toNat = rotate s.e.toNat 25 := toNat_rotr (by decide)
  simp only [temp, Sha256.temp, wrap, UInt32.toNat_add, UInt32.toNat_xor, UInt32.toNat_and,
    UInt32.toNat_not, h6, h11, h25]
  simp

theorem toNat_round (s : State) (k w : UInt32) :
    (s.round k w).a.toNat = wrap ((s.temp k w).toNat + front s.a.toNat s.b.toNat s.c.toNat) ∧
      (s.round k w).e.toNat = wrap (s.d.toNat + (s.temp k w).toNat) := by
  have h2 : (rotr s.a 2).toNat = rotate s.a.toNat 2 := toNat_rotr (by decide)
  have h13 : (rotr s.a 13).toNat = rotate s.a.toNat 13 := toNat_rotr (by decide)
  have h22 : (rotr s.a 22).toNat = rotate s.a.toNat 22 := toNat_rotr (by decide)
  have ha : (s.round k w).a = s.temp k w + ((rotr s.a 2 ^^^ rotr s.a 13 ^^^ rotr s.a 22) +
      ((s.a &&& s.b) ^^^ (s.a &&& s.c) ^^^ (s.b &&& s.c))) := rfl
  have he : (s.round k w).e = s.d + s.temp k w := rfl
  rw [ha, he]
  constructor
  · simp only [front, wrap, UInt32.toNat_add, UInt32.toNat_xor, UInt32.toNat_and, h2, h13, h22]
    simp
  · rw [UInt32.toNat_add, wrap]

end State

namespace Chain

/-- Runs the rounds of one schedule. -/
def rounds : List Nat → List Nat → (a b c d e f g h : Nat) → Chain
  | k :: ks, w :: ws, a, b, c, d, e, f, g, h =>
    strictly (temp e f g h k w) fun t =>
      strictly (wrap (t + front a b c)) fun a' =>
        strictly (wrap (d + t)) fun e' => rounds ks ws a' a b c e' e f g
  | _, _, a, b, c, d, e, f, g, h => ⟨a, b, c, d, e, f, g, h⟩

theorem rounds_eq (ks ws : List UInt32) (s : State) :
    rounds (ks.map UInt32.toNat) (ws.map UInt32.toNat) s.a.toNat s.b.toNat s.c.toNat s.d.toNat
      s.e.toNat s.f.toNat s.g.toNat s.h.toNat = (Sha256.rounds ks ws s).chain := by
  induction ks generalizing ws s with
  | nil => rfl
  | cons k ks ih =>
    cases ws with
    | nil => rfl
    | cons w ws =>
      obtain ⟨ha, he⟩ := s.toNat_round k w
      rw [s.toNat_temp] at ha he
      rw [Sha256.rounds, ← ih, ha, he, List.map_cons, List.map_cons, rounds, strictly_eq,
        strictly_eq, strictly_eq]
      rfl

/-! ### Schedules -/

/-- Puts `n` words in front of a schedule. -/
def extend : Nat → List Nat → List Nat
  | 0, ws => ws
  | n + 1, ws =>
    strictly (wrap (small1 (ws.getD 1 0) + ws.getD 6 0 + small0 (ws.getD 14 0) + ws.getD 15 0))
      fun w => extend n (w :: ws)

theorem getD_map_toNat (ws : List UInt32) (i : Nat) :
    (ws.map UInt32.toNat).getD i 0 = (ws.getD i 0).toNat := by
  rw [List.getD_eq_getElem?_getD, List.getD_eq_getElem?_getD, List.getElem?_map]
  cases ws[i]? <;> rfl

theorem extend_eq (n : Nat) (ws : List UInt32) :
    extend n (ws.map UInt32.toNat) = (Sha256.extend n ws).map UInt32.toNat := by
  induction n generalizing ws with
  | zero => rfl
  | succ n ih =>
    rw [Sha256.extend, ← ih, extend, strictly_eq, List.map_cons]
    simp only [getD_map_toNat, ← toNat_sigma0, ← toNat_sigma1, wrap, UInt32.toNat_add]
    simp

/-- The big-endian words of a byte string. -/
def words : List Nat → List Nat
  | a :: b :: c :: d :: rest =>
    strictly (wrap (a <<< 24) ||| wrap (b <<< 16) ||| wrap (c <<< 8) ||| d) fun w => w :: words rest
  | _ => []

theorem words_eq (bs : Bytes) :
    words (bs.map UInt8.toNat) = (Sha256.words bs).map UInt32.toNat := by
  fun_induction Sha256.words bs with
  | case1 a b c d rest ih =>
    simp only [List.map_cons, words, strictly_eq, ih]
    simp [wrap]
  | case2 bs h =>
    match bs, h with
    | [], _ => rfl
    | [_], _ => rfl
    | [_, _], _ => rfl
    | [_, _, _], _ => rfl
    | a :: b :: c :: d :: rest, h => exact absurd rfl (h a b c d rest)

/-! ### Blocks -/

/-- The chaining words after one block. -/
def compress (s : Chain) (block : List Nat) : Chain :=
  let t := rounds (roundConstants.map UInt32.toNat) (extend 48 (words block).reverse).reverse
    s.a s.b s.c s.d s.e s.f s.g s.h
  strictly (wrap (s.a + t.a)) fun a => strictly (wrap (s.b + t.b)) fun b =>
    strictly (wrap (s.c + t.c)) fun c => strictly (wrap (s.d + t.d)) fun d =>
      strictly (wrap (s.e + t.e)) fun e => strictly (wrap (s.f + t.f)) fun f =>
        strictly (wrap (s.g + t.g)) fun g => strictly (wrap (s.h + t.h)) fun h =>
          ⟨a, b, c, d, e, f, g, h⟩

theorem compress_eq (s : State) (block : Bytes) :
    compress s.chain (block.map UInt8.toNat) = (Sha256.compress s block).chain := by
  rw [compress, words_eq, ← List.map_reverse, extend_eq, ← List.map_reverse]
  simp only [State.chain, strictly_eq, rounds_eq]
  simp only [Sha256.compress, Sha256.schedule, wrap, UInt32.toNat_add]

/-- The chaining words after the first `n` blocks of a padded message. -/
def absorb : Nat → Chain → List Nat → Chain
  | 0, s, _ => s
  | n + 1, s, bs => absorb n (compress s (bs.take 64)) (bs.drop 64)

theorem absorb_eq (n : Nat) (s : State) (bs : Bytes) :
    absorb n s.chain (bs.map UInt8.toNat) = (Sha256.absorb n s bs).chain := by
  induction n generalizing s bs with
  | zero => rfl
  | succ n ih =>
    rw [absorb, ← List.map_take, ← List.map_drop, compress_eq, ih]
    rfl

/-- The four bytes of a word, most significant byte first. -/
def wordBytes (w : Nat) : Bytes :=
  [(w >>> 24).toUInt8, (w >>> 16).toUInt8, (w >>> 8).toUInt8, w.toUInt8]

/-- The chaining words as 32 bytes. -/
def bytes (s : Chain) : Bytes :=
  wordBytes s.a ++ wordBytes s.b ++ wordBytes s.c ++ wordBytes s.d ++
    wordBytes s.e ++ wordBytes s.f ++ wordBytes s.g ++ wordBytes s.h

theorem toUInt8_shiftRight (w n : UInt32) :
    (w >>> n).toUInt8 = (w.toNat >>> (n.toNat % 32)).toUInt8 := by
  rw [← UInt32.toNat_shiftRight]
  rfl

theorem bytes_chain (s : State) : s.chain.bytes = s.bytes.toList := by
  rw [State.bytes, Vector.toList_ofFn]
  simp only [List.ofFn_succ, List.ofFn_zero, toUInt8_shiftRight]
  rfl

end Chain

end Sha256

namespace Digest

open Sha256

/-- The hash of a byte string, on numbers. -/
def evaluate (message : Bytes) : Digest :=
  let padded := pad message
  let s := Chain.absorb (padded.length / 64) initial.chain (padded.map UInt8.toNat)
  ⟨⟨s.bytes.toArray, by simp [Chain.bytes, Chain.wordBytes]⟩⟩

theorem toBytes_evaluate (message : Bytes) : (evaluate message).toBytes =
    (Chain.absorb ((pad message).length / 64) initial.chain
      ((pad message).map UInt8.toNat)).bytes := rfl

/-- Evaluation on numbers is the hash. -/
theorem hash_eq_evaluate : hash = evaluate := by
  funext message
  rw [← toBytes_inj, toBytes_evaluate, Chain.absorb_eq, Chain.bytes_chain, hash, Sha256.hash,
    toBytes]

end Digest

/-! ### Hashes in trees -/

namespace Merkle

/-- The roots of the trees over zeros from one of them on. -/
def evaluateZeros : Nat → Digest → List Digest
  | 0, zero => [zero]
  | n + 1, zero => zero :: evaluateZeros n (Digest.evaluate (Digest.pairBytes zero zero))

theorem zerosFrom_eq_evaluateZeros (n : Nat) (zero : Digest) :
    zerosFrom n zero = evaluateZeros n zero := by
  induction n generalizing zero with
  | zero => rfl
  | succ n ih => rw [zerosFrom, evaluateZeros, ih, Digest.hashPair, Digest.hash_eq_evaluate]

end Merkle

namespace MerklePath

/-- The byte strings that are hashed on the way up from a node past some siblings. -/
def evaluateClimb : List Digest → (index : Nat) → (node : Digest) → List Bytes
  | [], _, _ => []
  | s :: siblings, index, node =>
    parentBytes index node s ::
      evaluateClimb siblings (index / 2) (Digest.evaluate (parentBytes index node s))

theorem climbMessages_eq_evaluateClimb (siblings : List Digest) (index : Nat) (node : Digest) :
    climbMessages siblings index node = evaluateClimb siblings index node := by
  induction siblings generalizing index node with
  | nil => rfl
  | cons s siblings ih =>
    rw [climbMessages, evaluateClimb, ih, ← hash_parentBytes, Digest.hash_eq_evaluate]

end MerklePath

/-! ### Collisions -/

/-- Byte strings do not collide if the first words of their hashes differ. -/
theorem CollisionFree.of_nodup {messages : List Bytes}
    (h : (messages.map fun x => Bytes.leValue ((Digest.evaluate x).toBytes.take 4)).Nodup) :
    CollisionFree fun x => x ∈ messages := by
  intro x y hx hy hxy
  rw [Digest.hash_eq_evaluate] at hxy
  exact List.inj_on_of_nodup_map h hx hy (by rw [hxy])

end ReplayVM
