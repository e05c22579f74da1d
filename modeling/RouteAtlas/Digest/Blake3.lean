/-!
# The BLAKE3 digest

A text is cut into chunks of 1024 bytes and each chunk into blocks of 64 bytes. A chunk is
compressed block by block into a chaining value; chaining values are joined in a binary tree whose
left part always holds the largest power of two of chunks. The digest is the first 32 bytes of the
root's output, written as hexadecimal digits.
-/

namespace RouteAtlas.Digest.Blake3

def iv : List UInt32 :=
  [0x6a09e667, 0xbb67ae85, 0x3c6ef372, 0xa54ff53a, 0x510e527f, 0x9b05688c, 0x1f83d9ab, 0x5be0cd19]

/-- Where each message word goes between two rounds. -/
def permutation : List Nat := [2, 6, 3, 10, 7, 0, 4, 13, 1, 11, 12, 5, 9, 14, 15, 8]

/-- The marks of a compression: first block of a chunk, last block of a chunk, parent, root. -/
def chunkStart : UInt32 := 1
@[inherit_doc chunkStart] def chunkEnd : UInt32 := 2
@[inherit_doc chunkStart] def parentMark : UInt32 := 4
@[inherit_doc chunkStart] def rootMark : UInt32 := 8

def rotr (x : UInt32) (n : UInt32) : UInt32 := (x >>> n) ||| (x <<< (32 - n))

def word (a : Array UInt32) (i : Nat) : UInt32 := a.getD i 0

/-- Mixes two message words into four words of the state. -/
def mix (s : Array UInt32) (a b c d : Nat) (x y : UInt32) : Array UInt32 :=
  let va := word s a + word s b + x
  let vd := rotr (word s d ^^^ va) 16
  let vc := word s c + vd
  let vb := rotr (word s b ^^^ vc) 12
  let va := va + vb + y
  let vd := rotr (vd ^^^ va) 8
  let vc := vc + vd
  let vb := rotr (vb ^^^ vc) 7
  (((s.setIfInBounds a va).setIfInBounds b vb).setIfInBounds c vc).setIfInBounds d vd

/-- The words mixed in one round: columns, then diagonals. -/
def lanes : List (Nat × Nat × Nat × Nat) :=
  [(0, 4, 8, 12), (1, 5, 9, 13), (2, 6, 10, 14), (3, 7, 11, 15),
   (0, 5, 10, 15), (1, 6, 11, 12), (2, 7, 8, 13), (3, 4, 9, 14)]

def round (s m : Array UInt32) : Array UInt32 :=
  (lanes.zipIdx).foldl
    (fun s ((a, b, c, d), i) => mix s a b c d (word m (2 * i)) (word m (2 * i + 1))) s

/-- `n` rounds, the message words permuted after each. -/
def rounds : Nat → (s m : Array UInt32) → Array UInt32
  | 0, s, _ => s
  | n + 1, s, m => rounds n (round s m) (permutation.map (word m)).toArray

/-- What a compression takes in: a chaining value, a block, its number, its length and its marks. -/
structure Input where
  cv : List UInt32
  block : List UInt32
  counter : Nat
  size : Nat
  marks : UInt32

/-- The output of a compression, sixteen words. -/
def compress (x : Input) : List UInt32 :=
  let start := x.cv ++ iv.take 4 ++
    [x.counter.toUInt32, (x.counter / 0x100000000).toUInt32, x.size.toUInt32, x.marks]
  let s := rounds 7 start.toArray x.block.toArray
  ((List.range 8).map fun i => word s i ^^^ word s (i + 8)) ++
    (x.cv.zipIdx.map fun (c, i) => word s (i + 8) ^^^ c)

def chain (x : Input) : List UInt32 := (compress x).take 8

variable (bytes : List UInt8)

/-- Four bytes as a word, lowest byte first; missing bytes are zero. -/
def leWord : UInt32 :=
  bytes.foldr (fun b acc => acc * 256 + b.toUInt32) 0

/-- The words of a block, sixteen of them; missing bytes are zero. -/
def blockWords : List UInt32 :=
  (List.range 16).map fun i => leWord ((bytes.drop (4 * i)).take 4)

/-- The last compression of a chunk, given what is left of the chunk and the value so far. -/
def chunkTail (counter : Nat) (cv : List UInt32) (first : UInt32) (bytes : List UInt8) : Input :=
  if 64 < bytes.length then
    let block := ⟨cv, blockWords (bytes.take 64), counter, 64, first⟩
    chunkTail counter (chain block) 0 (bytes.drop 64)
  else ⟨cv, blockWords bytes, counter, bytes.length, first ||| chunkEnd⟩
termination_by bytes.length
decreasing_by simp; omega

def chunkNode (counter : Nat) (bytes : List UInt8) : Input := chunkTail counter iv chunkStart bytes

/-- The number of bytes in the left part of a tree over more than one chunk: the largest power of
two of chunks that leaves something for the right part. -/
def leftSize (n : Nat) : Nat := 1024 * Nat.pow 2 ((n - 1) / 1024).log2

theorem leftSize_lt {n : Nat} (h : 1024 < n) : leftSize n < n := by
  have h2 : (n - 1) / 1024 ≠ 0 := by omega
  have := Nat.log2_self_le h2
  have := Nat.div_mul_le_self (n - 1) 1024
  simp only [leftSize]
  have hle : Nat.pow 2 ((n - 1) / 1024).log2 * 1024 ≤ (n - 1) / 1024 * 1024 :=
    Nat.mul_le_mul_right 1024 (by assumption)
  omega

theorem leftSize_pos (n : Nat) : 0 < leftSize n :=
  Nat.mul_pos (by decide) (Nat.pow_pos (by decide))

/-- The last compression of the tree over the bytes, whose first chunk has the given number. -/
def subtree (counter : Nat) (bytes : List UInt8) : Input :=
  if _h : 1024 < bytes.length then
    let size := leftSize bytes.length
    let left := subtree counter (bytes.take size)
    let right := subtree (counter + size / 1024) (bytes.drop size)
    ⟨iv, chain left ++ chain right, 0, 64, parentMark⟩
  else chunkNode counter bytes
termination_by bytes.length
decreasing_by
  · have := leftSize_lt _h
    simp only [List.length_take]
    omega
  · have := leftSize_pos bytes.length
    simp only [List.length_drop]
    omega

def wordBytes (w : UInt32) : List Nat :=
  (List.range 4).map fun i => w.toNat / Nat.pow 256 i % 256

def digest : List Nat :=
  let root := subtree 0 bytes
  (chain { root with marks := root.marks ||| rootMark }).flatMap wordBytes

def hexByte (b : Nat) : List Char :=
  [b / 16, b % 16].map fun d => if d < 10 then Char.ofNat (48 + d) else Char.ofNat (87 + d)

def hexDigest : String := String.ofList ((digest bytes).flatMap hexByte)

def ofText (text : String) : String := hexDigest text.toUTF8.toList

end RouteAtlas.Digest.Blake3
