import CorpusIndex.Collaborator
import CorpusIndex.Digest.XxHash64
import CorpusIndex.Embedding.Similarity
import CorpusIndex.Text.Alphanumeric
import CorpusIndex.Text.Blank
import CorpusIndex.Text.LetterCase

/-!
# Hashed embeddings

Every lower-cased word of a text adds to one entry of the vector, chosen by a hash, and the vector is
scaled to length one.
-/
namespace CorpusIndex.Hashed

/-- Hash of a word: the 64-bit xxHash of its bytes and a closing byte. -/
def wordHash (w : List Char) : Nat :=
  (Digest.XxHash64.digest ((String.ofList w).toUTF8.toList ++ [0xFF])).toNat

/-- What the `i`-th word adds to an entry. -/
def weight (hash i : Nat) : Float32 :=
  let high : UInt64 := (hash >>> 32).toUInt64
  0.5 + high.toFloat32 / 4294967296.0 + (i % 3).toUInt64.toFloat32 * 0.01

/-- The words of a text, lower-cased. -/
def wordsOf (text : String) : List (List Char) :=
  (Text.runs Text.isAlphanumeric text.toList).map Text.lowercase

/-- Sums of weights before scaling. -/
def accumulate (dim : Nat) (text : String) : Embedding :=
  (wordsOf text).zipIdx.foldl
    (fun v w =>
      let hash := wordHash w.1
      v.modify (hash % dim) (· + weight hash w.2))
    (List.replicate dim 0.0)

/-- The embedding of a text. -/
def embed (dim : Nat) (text : String) : Embedding :=
  let v := accumulate dim text
  let norm := v.norm
  if norm > 0.0 then v.map (· / norm) else v

/-- The most entries a vector can have: at four bytes each they fill less than half of a 64-bit
address space. -/
def mostEntries : Nat := 2305843009213693951

/-- Vectors of a batch. The dimension matters only once a vector has to be made. -/
def embedBatch {σ : Type} (dim : Nat) (texts : List String) : Call σ (List Embedding) :=
  if mostEntries < dim ∧ texts ≠ [] then throw (.tooManyEntries dim)
  else pure (texts.map (embed dim))

/-- The embedder of a positive dimension. -/
def embedder {σ : Type} (dim : Nat) : Except Fault (Embedder σ) :=
  if dim = 0 then .error .zeroDimension
  else .ok ⟨dim, embedBatch dim⟩

end CorpusIndex.Hashed
