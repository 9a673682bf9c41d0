import ReplayVM.Bytes

/-!
# SHA-256

The hash function of FIPS 180-4 on byte strings. A message is padded to whole blocks of 64 bytes
(`Sha256.pad`), each block is expanded into 64 words (`Sha256.schedule`), and the words drive 64
rounds on eight chaining words (`Sha256.compress`).

## Main definitions

* `Sha256.hash`: the 32 bytes of the hash of a message.
-/

namespace ReplayVM.Sha256

/-- The eight chaining words. -/
structure State where
  a : UInt32
  b : UInt32
  c : UInt32
  d : UInt32
  e : UInt32
  f : UInt32
  g : UInt32
  h : UInt32

/-- The chaining words before the first block. -/
def initial : State :=
  ⟨0x6a09e667, 0xbb67ae85, 0x3c6ef372, 0xa54ff53a, 0x510e527f, 0x9b05688c, 0x1f83d9ab, 0x5be0cd19⟩

/-- The additive constants of the 64 rounds. -/
def roundConstants : List UInt32 :=
  [0x428a2f98, 0x71374491, 0xb5c0fbcf, 0xe9b5dba5, 0x3956c25b, 0x59f111f1, 0x923f82a4, 0xab1c5ed5,
   0xd807aa98, 0x12835b01, 0x243185be, 0x550c7dc3, 0x72be5d74, 0x80deb1fe, 0x9bdc06a7, 0xc19bf174,
   0xe49b69c1, 0xefbe4786, 0x0fc19dc6, 0x240ca1cc, 0x2de92c6f, 0x4a7484aa, 0x5cb0a9dc, 0x76f988da,
   0x983e5152, 0xa831c66d, 0xb00327c8, 0xbf597fc7, 0xc6e00bf3, 0xd5a79147, 0x06ca6351, 0x14292967,
   0x27b70a85, 0x2e1b2138, 0x4d2c6dfc, 0x53380d13, 0x650a7354, 0x766a0abb, 0x81c2c92e, 0x92722c85,
   0xa2bfe8a1, 0xa81a664b, 0xc24b8b70, 0xc76c51a3, 0xd192e819, 0xd6990624, 0xf40e3585, 0x106aa070,
   0x19a4c116, 0x1e376c08, 0x2748774c, 0x34b0bcb5, 0x391c0cb3, 0x4ed8aa4a, 0x5b9cca4f, 0x682e6ff3,
   0x748f82ee, 0x78a5636f, 0x84c87814, 0x8cc70208, 0x90befffa, 0xa4506ceb, 0xbef9a3f7, 0xc67178f2]

/-- Rotation to the right by `n` bits, for `n` from 1 to 31. -/
def rotr (w n : UInt32) : UInt32 := (w >>> n) ||| (w <<< (32 - n))

def sigma0 (w : UInt32) : UInt32 := rotr w 7 ^^^ rotr w 18 ^^^ (w >>> 3)

def sigma1 (w : UInt32) : UInt32 := rotr w 17 ^^^ rotr w 19 ^^^ (w >>> 10)

/-- One round, with its additive constant and its word of the schedule. -/
def State.round (s : State) (k w : UInt32) : State :=
  let choice := (s.e &&& s.f) ^^^ (~~~s.e &&& s.g)
  let majority := (s.a &&& s.b) ^^^ (s.a &&& s.c) ^^^ (s.b &&& s.c)
  let t₁ := s.h + (rotr s.e 6 ^^^ rotr s.e 11 ^^^ rotr s.e 25) + choice + k + w
  let t₂ := (rotr s.a 2 ^^^ rotr s.a 13 ^^^ rotr s.a 22) + majority
  ⟨t₁ + t₂, s.a, s.b, s.c, s.d + t₁, s.e, s.f, s.g⟩

/-- The big-endian words of a byte string, four bytes each. -/
def words : Bytes → List UInt32
  | a :: b :: c :: d :: rest =>
    ((a.toUInt32 <<< 24) ||| (b.toUInt32 <<< 16) ||| (c.toUInt32 <<< 8) ||| d.toUInt32) ::
      words rest
  | _ => []

/-- Puts `n` words in front of a schedule written latest word first, by the recurrence on the
words 2, 7, 15 and 16 back. -/
def extend : Nat → List UInt32 → List UInt32
  | 0, ws => ws
  | n + 1, ws =>
    extend n ((sigma1 (ws.getD 1 0) + ws.getD 6 0 + sigma0 (ws.getD 14 0) + ws.getD 15 0) :: ws)

/-- The 64 words that a block contributes to the rounds. -/
def schedule (block : Bytes) : List UInt32 :=
  (extend 48 (words block).reverse).reverse

/-- Runs the rounds of one schedule. -/
def rounds : List UInt32 → List UInt32 → State → State
  | k :: ks, w :: ws, s => rounds ks ws (s.round k w)
  | _, _, s => s

/-- The chaining words after one block. -/
def compress (s : State) (block : Bytes) : State :=
  let t := rounds roundConstants (schedule block) s
  ⟨s.a + t.a, s.b + t.b, s.c + t.c, s.d + t.d, s.e + t.e, s.f + t.f, s.g + t.g, s.h + t.h⟩

/-- The chaining words after the first `n` blocks of a padded message. -/
def absorb : Nat → State → Bytes → State
  | 0, s, _ => s
  | n + 1, s, bs => absorb n (compress s (bs.take 64)) (bs.drop 64)

/-- A message followed by the bit 1, the fewest zeros that complete a block, and the length of
the message in bits as eight bytes, most significant first. -/
def pad (message : Bytes) : Bytes :=
  let size := message.length
  message ++ 0x80 :: List.replicate ((119 - size % 64) % 64) 0 ++ (Bytes.le 8 (8 * size)).reverse

/-- The `i`-th of the eight chaining words. -/
def State.word (s : State) : Nat → UInt32
  | 0 => s.a
  | 1 => s.b
  | 2 => s.c
  | 3 => s.d
  | 4 => s.e
  | 5 => s.f
  | 6 => s.g
  | _ => s.h

/-- The chaining words as 32 bytes, each word most significant byte first. -/
def State.bytes (s : State) : Vector UInt8 32 :=
  Vector.ofFn fun i => (s.word (i.val / 4) >>> (24 - 8 * (i.val % 4)).toUInt32).toUInt8

/-- The SHA-256 hash of a message. -/
def hash (message : Bytes) : Vector UInt8 32 :=
  let padded := pad message
  (absorb (padded.length / 64) initial padded).bytes

end ReplayVM.Sha256
