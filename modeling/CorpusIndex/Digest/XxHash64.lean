import CorpusIndex.Bytes
import CorpusIndex.Groups

/-!
# The 64-bit xxHash

Input is taken in stripes of 32 bytes by four lanes, the rest in words of eight and four bytes and
then byte by byte.
-/
namespace CorpusIndex
namespace Digest.XxHash64

def prime1 : UInt64 := 0x9E3779B185EBCA87
def prime2 : UInt64 := 0xC2B2AE3D27D4EB4F
def prime3 : UInt64 := 0x165667B19E3779F9
def prime4 : UInt64 := 0x85EBCA77C2B2AE63
def prime5 : UInt64 := 0x27D4EB2F165667C5

def rotateLeft (x : UInt64) (n : UInt64) : UInt64 := (x <<< n) ||| (x >>> (64 - n))

def round (acc lane : UInt64) : UInt64 := rotateLeft (acc + lane * prime2) 31 * prime1

/-- The four lanes of the state. -/
structure Lanes where
  a : UInt64
  b : UInt64
  c : UInt64
  d : UInt64

def Lanes.start (seed : UInt64) : Lanes := ⟨seed + prime1 + prime2, seed + prime2, seed, seed - prime1⟩

/-- One stripe of 32 bytes. -/
def Lanes.absorb (s : Lanes) (stripe : List UInt8) : Lanes :=
  ⟨round s.a (word64 (stripe.take 8)), round s.b (word64 ((stripe.drop 8).take 8)),
    round s.c (word64 ((stripe.drop 16).take 8)), round s.d (word64 ((stripe.drop 24).take 8))⟩

def mergeRound (acc lane : UInt64) : UInt64 := (acc ^^^ round 0 lane) * prime1 + prime4

def Lanes.converge (s : Lanes) : UInt64 :=
  let h := rotateLeft s.a 1 + rotateLeft s.b 7 + rotateLeft s.c 12 + rotateLeft s.d 18
  mergeRound (mergeRound (mergeRound (mergeRound h s.a) s.b) s.c) s.d

def absorbWord (h : UInt64) (bytes : List UInt8) : UInt64 :=
  rotateLeft (h ^^^ round 0 (word64 bytes)) 27 * prime1 + prime4

def absorbHalf (h : UInt64) (bytes : List UInt8) : UInt64 :=
  rotateLeft (h ^^^ (word64 bytes * prime1)) 23 * prime2 + prime3

def absorbByte (h : UInt64) (byte : UInt8) : UInt64 :=
  rotateLeft (h ^^^ (byte.toUInt64 * prime5)) 11 * prime1

/-- Fewer than 32 bytes at the end of the input. -/
def absorbTail (h : UInt64) (bytes : List UInt8) : UInt64 :=
  let eights := bytes.length / 8
  let h := (groups 8 (bytes.take (eights * 8))).foldl absorbWord h
  let rest := bytes.drop (eights * 8)
  let fours := rest.length / 4
  let h := (groups 4 (rest.take (fours * 4))).foldl absorbHalf h
  (rest.drop (fours * 4)).foldl absorbByte h

def avalanche (h : UInt64) : UInt64 :=
  let h := (h ^^^ (h >>> 33)) * prime2
  let h := (h ^^^ (h >>> 29)) * prime3
  h ^^^ (h >>> 32)

/-- The digest under seed zero. -/
def digest (bytes : List UInt8) : UInt64 :=
  let stripes := bytes.length / 32
  let start :=
    if stripes = 0 then prime5
    else ((groups 32 (bytes.take (stripes * 32))).foldl Lanes.absorb (.start 0)).converge
  avalanche (absorbTail (start + bytes.length.toUInt64) (bytes.drop (stripes * 32)))

end Digest.XxHash64

/-- Sixteen hexadecimal digits of the 64-bit xxHash of a text, which name a document by its text. -/
def shortDigest (text : String) : String :=
  Digest.hexText 16 (Digest.XxHash64.digest text.toUTF8.toList).toNat

end CorpusIndex
