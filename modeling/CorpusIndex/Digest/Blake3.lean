import CorpusIndex.Bytes
import CorpusIndex.Groups

/-!
# The BLAKE3 digest

The input is cut into chunks of 1024 bytes, each chunk into blocks of 64. The chunks are the leaves
of a binary tree whose left subtrees are complete; the root of the tree yields the digest.
-/
namespace CorpusIndex
namespace Digest.Blake3

abbrev Chain := Vector UInt32 8
abbrev Block := Vector UInt32 16

def initial : Chain :=
  #v[0x6A09E667, 0xBB67AE85, 0x3C6EF372, 0xA54FF53A, 0x510E527F, 0x9B05688C, 0x1F83D9AB, 0x5BE0CD19]

def chunkStart : UInt32 := 1
def chunkEnd : UInt32 := 2
def parentFlag : UInt32 := 4
def rootFlag : UInt32 := 8

def rotateRight (x : UInt32) (n : UInt32) : UInt32 := (x >>> n) ||| (x <<< (32 - n))

/-- The quarter round on four words of the state. -/
def mix (s : Block) (a b c d : Fin 16) (x y : UInt32) : Block :=
  let va := s[a] + s[b] + x
  let vd := rotateRight (s[d] ^^^ va) 16
  let vc := s[c] + vd
  let vb := rotateRight (s[b] ^^^ vc) 12
  let va := va + vb + y
  let vd := rotateRight (vd ^^^ va) 8
  let vc := vc + vd
  let vb := rotateRight (vb ^^^ vc) 7
  (((s.set a va).set b vb).set c vc).set d vd

/-- Columns, then diagonals. -/
def round (s m : Block) : Block :=
  let s := mix s 0 4 8 12 m[0] m[1]
  let s := mix s 1 5 9 13 m[2] m[3]
  let s := mix s 2 6 10 14 m[4] m[5]
  let s := mix s 3 7 11 15 m[6] m[7]
  let s := mix s 0 5 10 15 m[8] m[9]
  let s := mix s 1 6 11 12 m[10] m[11]
  let s := mix s 2 7 8 13 m[12] m[13]
  mix s 3 4 9 14 m[14] m[15]

/-- The order of the message words in the next round. -/
def permute (m : Block) : Block :=
  #v[m[2], m[6], m[3], m[10], m[7], m[0], m[4], m[13],
    m[1], m[11], m[12], m[5], m[9], m[14], m[15], m[8]]

def rounds : Nat → Block → Block → Block
  | 0, s, _ => s
  | n + 1, s, m => rounds n (round s m) (permute m)

/-- A compression that has not been run: a node of the tree before it is known to be the root. -/
structure Pending where
  chain : Chain
  block : Block
  counter : UInt64
  size : UInt32
  flags : UInt32

/-- The chaining value after the compression with some more flags. -/
def Pending.run (p : Pending) (extra : UInt32) : Chain :=
  let h := p.chain
  let s : Block :=
    #v[h[0], h[1], h[2], h[3], h[4], h[5], h[6], h[7], initial[0], initial[1], initial[2], initial[3],
      p.counter.toUInt32, (p.counter >>> 32).toUInt32, p.size, p.flags ||| extra]
  let s := rounds 7 s p.block
  #v[s[0] ^^^ s[8], s[1] ^^^ s[9], s[2] ^^^ s[10], s[3] ^^^ s[11],
    s[4] ^^^ s[12], s[5] ^^^ s[13], s[6] ^^^ s[14], s[7] ^^^ s[15]]

/-- Sixteen words of a block, zeros after its end. -/
def blockOf (bytes : List UInt8) : Block :=
  Vector.ofFn (fun i => word32 ((bytes.drop (4 * i.val)).take 4))

/-- All blocks of a chunk but the last are compressed. -/
def absorbBlocks (counter : UInt64) (chain : Chain) (flags : UInt32) : List (List UInt8) → Pending
  | [] => ⟨chain, blockOf [], counter, 0, flags ||| chunkEnd⟩
  | [last] => ⟨chain, blockOf last, counter, last.length.toUInt32, flags ||| chunkEnd⟩
  | b :: rest =>
    let p : Pending := ⟨chain, blockOf b, counter, b.length.toUInt32, flags⟩
    absorbBlocks counter (p.run 0) 0 rest

def chunkNode (counter : Nat) (bytes : List UInt8) : Pending :=
  absorbBlocks counter.toUInt64 initial chunkStart (groups 64 bytes)

def parentNode (left right : Chain) : Pending :=
  ⟨initial, Vector.ofFn (fun i => if h : i.val < 8 then left[i.val] else right[i.val - 8]), 0, 64,
    parentFlag⟩

/-- The tree over chunks numbered from `first`. -/
def tree (first : Nat) (chunks : List (List UInt8)) : Pending :=
  if _h : chunks.length ≤ 1 then chunkNode first (chunks.headD [])
  else
    let left := min (chunks.length - 1) (1 <<< (chunks.length - 1).log2)
    parentNode ((tree first (chunks.take left)).run 0) ((tree (first + left) (chunks.drop left)).run 0)
termination_by chunks.length
decreasing_by
  · simp only [List.length_take]
    omega
  · have : 0 < 1 <<< (chunks.length - 1).log2 := by
      rw [Nat.one_shiftLeft]
      exact Nat.two_pow_pos _
    simp only [List.length_drop]
    omega

/-- The digest as 64 hexadecimal digits. -/
def digestHex (bytes : List UInt8) : String :=
  let root := (tree 0 (groups 1024 bytes)).run rootFlag
  String.join (root.toList.map (fun w =>
    hexText 2 (w.toNat % 256) ++ hexText 2 (w.toNat >>> 8 % 256) ++
    hexText 2 (w.toNat >>> 16 % 256) ++ hexText 2 (w.toNat >>> 24)))

end Digest.Blake3

/-- Sixty-four hexadecimal digits of the BLAKE3 digest of a text, under which its embedding is cached. -/
def contentDigest (text : String) : String := Digest.Blake3.digestHex text.toUTF8.toList

end CorpusIndex
