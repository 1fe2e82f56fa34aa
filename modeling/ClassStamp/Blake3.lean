import ClassStamp.Bytes

/-!
# BLAKE3

The hash function that names the bytes of a written class file. The input is
cut into chunks of 1024 bytes, each chunk is folded block by block into eight
words, and the chunks are joined two by two in a binary tree whose left half
is always the largest full one.

* `compress` is the function of one block;
* `chunk` folds the blocks of a chunk, `tree` joins the chunks;
* `hash` is the digest of 32 bytes.
-/

namespace ClassStamp.Blake3

/-- The eight words that one compression leaves to the next. -/
abbrev ChainingValue := Vector UInt32 8

/-- The words that a digest without key begins with. -/
def initial : ChainingValue :=
  #v[0x6A09E667, 0xBB67AE85, 0x3C6EF372, 0xA54FF53A, 0x510E527F, 0x9B05688C, 0x1F83D9AB,
    0x5BE0CD19]

/-- Marks the first block of a chunk. -/
def chunkStart : UInt32 := 1

/-- Marks the last block of a chunk. -/
def chunkEnd : UInt32 := 2

/-- Marks a block of two chaining values. -/
def parentNode : UInt32 := 4

/-- Marks the last compression of all. -/
def rootNode : UInt32 := 8

/-- How many bytes a block holds. -/
def blockLength : Nat := 64

/-- How many bytes a chunk holds. -/
def chunkLength : Nat := 1024

/-- Where each word of a block comes from in the next round. -/
def permutation : Vector (Fin 16) 16 := #v[2, 6, 3, 10, 7, 0, 4, 13, 1, 11, 12, 5, 9, 14, 15, 8]

/-- Turns a word to the right. -/
def rotate (w n : UInt32) : UInt32 := w >>> n ||| w <<< (32 - n)

/-- Stirs two words of the block into four words of the state. -/
def quarter (v : Vector UInt32 16) (a b c d : Fin 16) (x y : UInt32) : Vector UInt32 16 :=
  let va := v[a] + v[b] + x
  let vd := rotate (v[d] ^^^ va) 16
  let vc := v[c] + vd
  let vb := rotate (v[b] ^^^ vc) 12
  let va := va + vb + y
  let vd := rotate (vd ^^^ va) 8
  let vc := vc + vd
  let vb := rotate (vb ^^^ vc) 7
  (((v.set a va).set b vb).set c vc).set d vd

/-- Stirs the block into the columns of the state, then into its diagonals. -/
def round (v m : Vector UInt32 16) : Vector UInt32 16 :=
  let v := quarter v 0 4 8 12 m[0] m[1]
  let v := quarter v 1 5 9 13 m[2] m[3]
  let v := quarter v 2 6 10 14 m[4] m[5]
  let v := quarter v 3 7 11 15 m[6] m[7]
  let v := quarter v 0 5 10 15 m[8] m[9]
  let v := quarter v 1 6 11 12 m[10] m[11]
  let v := quarter v 2 7 8 13 m[12] m[13]
  quarter v 3 4 9 14 m[14] m[15]

/-- Runs `n` rounds, with the block reordered between each two. -/
def rounds : Nat → Vector UInt32 16 → Vector UInt32 16 → Vector UInt32 16
  | 0, v, _ => v
  | n + 1, v, m => rounds n (round v m) (permutation.map fun i => m[i])

/-- Folds one block into a chaining value. -/
def compress (cv : ChainingValue) (block : Vector UInt32 16) (counter : UInt64)
    (length flags : UInt32) : ChainingValue :=
  let v := rounds 7
    #v[cv[0], cv[1], cv[2], cv[3], cv[4], cv[5], cv[6], cv[7], initial[0], initial[1],
      initial[2], initial[3], counter.toUInt32, (counter >>> 32).toUInt32, length, flags]
    block
  Vector.ofFn fun i : Fin 8 => v[i.val] ^^^ v[i.val + 8]

/-- The sixteen words of a block, low byte first; missing bytes are zero. -/
def blockWords (bytes : Bytes) : Vector UInt32 16 :=
  let block := bytes.toArray
  let byte (i : Nat) : UInt32 := (block.getD i 0).toUInt32
  Vector.ofFn fun i : Fin 16 =>
    byte (4 * i) ||| byte (4 * i + 1) <<< 8 ||| byte (4 * i + 2) <<< 16 |||
      byte (4 * i + 3) <<< 24

/-- Folds the blocks of a chunk into `cv`. The first block has the flags
`first`, the last one has `last` as well. -/
def chunk (cv : ChainingValue) (counter : UInt64) (first last : UInt32) (bytes : Bytes) :
    ChainingValue :=
  match h : bytes.drop blockLength with
  | [] =>
    compress cv (blockWords bytes) counter (UInt32.ofNat bytes.length)
      (first ||| chunkEnd ||| last)
  | b :: rest =>
    chunk (compress cv (blockWords (bytes.take blockLength)) counter 64 first) counter 0 last
      (b :: rest)
termination_by bytes.length
decreasing_by
  have := congrArg List.length h
  simp only [List.length_drop, List.length_cons, blockLength] at this ⊢
  omega

/-- The chunks of an input. An input without bytes has none. -/
def chunks : Bytes → List Bytes
  | [] => []
  | b :: rest => (b :: rest.take (chunkLength - 1)) :: chunks (rest.drop (chunkLength - 1))
termination_by bytes => bytes.length
decreasing_by simp only [List.length_drop, List.length_cons]; omega

/-- How many of at least two chunks go to the left half of the tree: the most
that fill a full tree and leave some for the right. -/
def leftCount (n : Nat) : Nat := 1 <<< (n - 1).log2

theorem leftCount_pos (n : Nat) : 0 < leftCount n := by
  rw [leftCount, Nat.shiftLeft_eq, Nat.one_mul]
  exact Nat.two_pow_pos _

theorem leftCount_lt {n : Nat} (h : 1 < n) : leftCount n < n := by
  have := Nat.log2_self_le (n := n - 1) (by omega)
  rw [leftCount, Nat.shiftLeft_eq, Nat.one_mul]
  omega

/-- Joins the chunks of an input, the first of which has the given number.
The last compression has the flags `last` as well. -/
def tree (last : UInt32) (counter : Nat) (parts : List Bytes) : ChainingValue :=
  if _h : 1 < parts.length then
    let n := leftCount parts.length
    let left := tree 0 counter (parts.take n)
    let right := tree 0 (counter + n) (parts.drop n)
    compress initial (left ++ right) 0 64 (parentNode ||| last)
  else chunk initial (UInt64.ofNat counter) chunkStart last (parts.head?.getD [])
termination_by parts.length
decreasing_by
  · have := leftCount_lt _h; simp; omega
  · have := leftCount_pos parts.length
    simp; omega

/-- The digest of a byte string. -/
def hash (bytes : Bytes) : Vector UInt8 32 :=
  let words := tree rootNode 0 (chunks bytes)
  Vector.ofFn fun i : Fin 32 =>
    (words[i.val / 4] >>> UInt32.ofNat (8 * (i.val % 4))).toUInt8

end ClassStamp.Blake3
