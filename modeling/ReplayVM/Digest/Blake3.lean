import ReplayVM.Bytes

/-!
# BLAKE3

The unkeyed 256-bit BLAKE3 hash, which names a program file. The input is cut into chunks of 1024
bytes; each chunk is compressed block by block into a chaining value, and the chunks are joined
pairwise in a binary tree whose left subtrees are as large a power of two as leaves something for
the right.

## Main definitions

* `Blake3.hash`: the 32 bytes of the hash of an input.
-/

namespace ReplayVM.Blake3

/-- The initial chaining words. -/
def initial : Array UInt32 :=
  #[0x6a09e667, 0xbb67ae85, 0x3c6ef372, 0xa54ff53a, 0x510e527f, 0x9b05688c, 0x1f83d9ab, 0x5be0cd19]

/-- The order in which each round but the first takes the message words of the one before. -/
def permutation : List Nat := [2, 6, 3, 10, 7, 0, 4, 13, 1, 11, 12, 5, 9, 14, 15, 8]

/-- Flag of the first block of a chunk. -/
def chunkStart : UInt32 := 1

/-- Flag of the last block of a chunk. -/
def chunkEnd : UInt32 := 2

/-- Flag of a block that holds two chaining values. -/
def parent : UInt32 := 4

/-- Flag of the last block of the whole tree. -/
def root : UInt32 := 8

private def rotr (w n : UInt32) : UInt32 := (w >>> n) ||| (w <<< (32 - n))

/-- Mixes two message words into four words of the state. -/
def mix (v : Array UInt32) (a b c d : Nat) (x y : UInt32) : Array UInt32 :=
  let va := v.getD a 0 + v.getD b 0 + x
  let vd := rotr (v.getD d 0 ^^^ va) 16
  let vc := v.getD c 0 + vd
  let vb := rotr (v.getD b 0 ^^^ vc) 12
  let va := va + vb + y
  let vd := rotr (vd ^^^ va) 8
  let vc := vc + vd
  let vb := rotr (vb ^^^ vc) 7
  (((v.setIfInBounds a va).setIfInBounds b vb).setIfInBounds c vc).setIfInBounds d vd

/-- One round: the columns of the state, then its diagonals. -/
def round (v m : Array UInt32) : Array UInt32 :=
  let w (i : Nat) : UInt32 := m.getD i 0
  let v := mix v 0 4 8 12 (w 0) (w 1)
  let v := mix v 1 5 9 13 (w 2) (w 3)
  let v := mix v 2 6 10 14 (w 4) (w 5)
  let v := mix v 3 7 11 15 (w 6) (w 7)
  let v := mix v 0 5 10 15 (w 8) (w 9)
  let v := mix v 1 6 11 12 (w 10) (w 11)
  let v := mix v 2 7 8 13 (w 12) (w 13)
  mix v 3 4 9 14 (w 14) (w 15)

/-- `n` rounds, the message words permuted between them. -/
def rounds : Nat → (v m : Array UInt32) → Array UInt32
  | 0, v, _ => v
  | n + 1, v, m => rounds n (round v m) (permutation.map (m.getD · 0)).toArray

/-- A block waiting to be compressed: all but the flag that says whether it ends the tree. -/
structure Node where
  chaining : Array UInt32
  message : Array UInt32
  counter : Nat
  size : Nat
  flags : UInt32

/-- The eight words a node compresses to, with further flags set. -/
def Node.compress (node : Node) (flags : UInt32) : Array UInt32 :=
  let v := rounds 7
    (node.chaining ++ initial.extract 0 4 ++
      #[node.counter.toUInt32, (node.counter >>> 32).toUInt32, node.size.toUInt32,
        node.flags ||| flags])
    node.message
  (Array.range 8).map fun i => v.getD i 0 ^^^ v.getD (i + 8) 0

/-- The sixteen little-endian words of a block, zero past its end. -/
def blockWords (block : Bytes) : Array UInt32 :=
  (Array.range 16).map fun i => Bytes.toWord ((block.drop (4 * i)).take 4)

/-- The last block of a chunk, after the others have been compressed into `chaining`. -/
def chunk (counter : Nat) (chaining : Array UInt32) (start : UInt32) (bytes : Bytes) : Node :=
  if h : bytes.length ≤ 64 then
    ⟨chaining, blockWords bytes, counter, bytes.length, start ||| chunkEnd⟩
  else
    have : bytes.length - 64 < bytes.length := by omega
    let node : Node := ⟨chaining, blockWords (bytes.take 64), counter, 64, start⟩
    chunk counter (node.compress 0) 0 (bytes.drop 64)
termination_by bytes.length
decreasing_by simpa using this

/-- The number of bytes that go to the left of an input longer than a chunk: the largest power of
two chunks that leaves something for the right. -/
def leftLength (size : Nat) : Nat := 1024 <<< ((size - 1) / 1024).log2

theorem leftLength_pos (size : Nat) : 0 < leftLength size := by
  rw [leftLength, Nat.shiftLeft_eq]
  exact Nat.mul_pos (by decide) (Nat.two_pow_pos _)

theorem leftLength_lt {size : Nat} (h : 1024 < size) : leftLength size < size := by
  have := Nat.log2_self_le (n := (size - 1) / 1024) (by omega)
  rw [leftLength, Nat.shiftLeft_eq]
  omega

/-- The top node of the tree over an input whose first chunk has the given number. -/
def tree (counter : Nat) (bytes : Bytes) : Node :=
  if h : bytes.length ≤ 1024 then chunk counter initial chunkStart bytes
  else
    let left := leftLength bytes.length
    have hpos : 0 < left := leftLength_pos _
    have hlt : left < bytes.length := leftLength_lt (by omega)
    let l := tree counter (bytes.take left)
    let r := tree (counter + left / 1024) (bytes.drop left)
    ⟨initial, l.compress 0 ++ r.compress 0, 0, 64, parent⟩
termination_by bytes.length
decreasing_by
  · simp only [List.length_take]; omega
  · simp only [List.length_drop]; omega

/-- The BLAKE3 hash of an input. -/
def hash (bytes : Bytes) : Bytes :=
  ((tree 0 bytes).compress root).toList.flatMap Bytes.ofWord

end ReplayVM.Blake3
