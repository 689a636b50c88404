import ContentGraph.Bytes

/-! The BLAKE3 hash of a byte string, with its default output of 32 bytes. The input is cut into
chunks of 1024 bytes, which are the leaves of a binary tree whose left subtrees are as large a power
of two of chunks as leaves something on the right. -/

namespace ContentGraph.Blake3

abbrev Words (n : Nat) := Vector UInt32 n

def chunkSize : Nat := 1024

def blockSize : Nat := 64

def initialWords : Words 8 :=
  #v[0x6A09E667, 0xBB67AE85, 0x3C6EF372, 0xA54FF53A, 0x510E527F, 0x9B05688C, 0x1F83D9AB, 0x5BE0CD19]

def chunkStart : UInt32 := 1
def chunkEnd : UInt32 := 2
def parent : UInt32 := 4
def root : UInt32 := 8

def rotateRight (x n : UInt32) : UInt32 :=
  (x >>> n) ||| (x <<< (32 - n))

/-- Mixes two message words into four words of the state. -/
def mix (s : Words 16) (a b c d : Fin 16) (x y : UInt32) : Words 16 :=
  let s := s.set a (s[a] + s[b] + x)
  let s := s.set d (rotateRight (s[d] ^^^ s[a]) 16)
  let s := s.set c (s[c] + s[d])
  let s := s.set b (rotateRight (s[b] ^^^ s[c]) 12)
  let s := s.set a (s[a] + s[b] + y)
  let s := s.set d (rotateRight (s[d] ^^^ s[a]) 8)
  let s := s.set c (s[c] + s[d])
  s.set b (rotateRight (s[b] ^^^ s[c]) 7)

/-- Mixes the columns of the state, then its diagonals. -/
def roundOf (s m : Words 16) : Words 16 :=
  let s := mix s 0 4 8 12 m[0] m[1]
  let s := mix s 1 5 9 13 m[2] m[3]
  let s := mix s 2 6 10 14 m[4] m[5]
  let s := mix s 3 7 11 15 m[6] m[7]
  let s := mix s 0 5 10 15 m[8] m[9]
  let s := mix s 1 6 11 12 m[10] m[11]
  let s := mix s 2 7 8 13 m[12] m[13]
  mix s 3 4 9 14 m[14] m[15]

def permute (m : Words 16) : Words 16 :=
  #v[m[2], m[6], m[3], m[10], m[7], m[0], m[4], m[13],
    m[1], m[11], m[12], m[5], m[9], m[14], m[15], m[8]]

def rounds : Nat → Words 16 → Words 16 → Words 16
  | 0, s, _ => s
  | n + 1, s, m => rounds n (roundOf s m) (permute m)

/-- What a block is compressed with: the words chained so far, the block's own words, the number of
its chunk, its length in bytes and its flags. -/
structure Block where
  chained : Words 8
  words : Words 16
  counter : UInt64
  length : UInt32
  flags : UInt32

def Block.compress (b : Block) : Words 8 :=
  let h := b.chained
  let s := rounds 7
    #v[h[0], h[1], h[2], h[3], h[4], h[5], h[6], h[7],
      initialWords[0], initialWords[1], initialWords[2], initialWords[3],
      b.counter.toUInt32, (b.counter >>> 32).toUInt32, b.length, b.flags]
    b.words
  #v[s[0] ^^^ s[8], s[1] ^^^ s[9], s[2] ^^^ s[10], s[3] ^^^ s[11],
    s[4] ^^^ s[12], s[5] ^^^ s[13], s[6] ^^^ s[14], s[7] ^^^ s[15]]

/-- Sixteen words from at most 64 bytes, with zeros for what is missing. -/
def wordsOfBytes (data : Bytes) : Words 16 :=
  Vector.ofFn fun i => UInt32.ofNat (ofLittleEndian ((data.drop (4 * i.val)).take 4))

/-- The last block of a chunk, the ones before it compressed. -/
def lastBlock (counter : UInt64) (chained : Words 8) (start : UInt32) (data : Bytes) : Block :=
  if _ : data.length ≤ blockSize then
    ⟨chained, wordsOfBytes data, counter, UInt32.ofNat data.length, start ||| chunkEnd⟩
  else
    let block : Block :=
      ⟨chained, wordsOfBytes (data.take blockSize), counter, UInt32.ofNat blockSize, start⟩
    lastBlock counter block.compress 0 (data.drop blockSize)
termination_by data.length
decreasing_by simp only [blockSize, List.length_drop] at *; omega

def parentBlock (left right : Words 8) : Block :=
  ⟨initialWords, left ++ right, 0, UInt32.ofNat blockSize, parent⟩

/-- The number of bytes in the left subtree over `length` bytes: the greatest power of two of chunks
that leaves at least one byte on the right. -/
def leftLength (length : Nat) : Nat :=
  chunkSize <<< ((length - 1) / chunkSize).log2

theorem leftLength_pos (length : Nat) : 0 < leftLength length := by
  rw [leftLength, Nat.shiftLeft_eq]
  exact Nat.mul_pos (by decide) (Nat.two_pow_pos _)

theorem leftLength_lt {length : Nat} (h : chunkSize < length) : leftLength length < length := by
  simp only [chunkSize] at h
  have hne : (length - 1) / 1024 ≠ 0 := by omega
  have hpow := Nat.log2_self_le hne
  simp only [leftLength, chunkSize, Nat.shiftLeft_eq]
  omega

/-- The topmost block of the tree over `data`, whose first chunk has the number `counter`. -/
def topBlock (counter : UInt64) (data : Bytes) : Block :=
  if _ : data.length ≤ chunkSize then lastBlock counter initialWords chunkStart data
  else
    let size := leftLength data.length
    let left := topBlock counter (data.take size)
    let right := topBlock (counter + UInt64.ofNat (size / chunkSize)) (data.drop size)
    parentBlock left.compress right.compress
termination_by data.length
decreasing_by
  · have := leftLength_lt (Nat.lt_of_not_le ‹¬data.length ≤ chunkSize›)
    simp only [List.length_take]; omega
  · have := leftLength_pos data.length
    simp only [List.length_drop]; omega

def bytesOfWords (words : Words 8) : Vector UInt8 32 :=
  Vector.ofFn fun i => (words[i.val / 4] >>> UInt32.ofNat (8 * (i.val % 4))).toUInt8

def hash (data : Bytes) : Vector UInt8 32 :=
  let top := topBlock 0 data
  bytesOfWords { top with flags := top.flags ||| root }.compress

end ContentGraph.Blake3
