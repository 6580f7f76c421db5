import CorpusIndex.Node

/-!
# Similarity and ranking

Cosine similarity in single precision, and the best of many candidates. Sums run from the left and
start from negative zero, which every other number absorbs.
-/
namespace CorpusIndex

/-- The sum of a vector's entries. -/
def Embedding.sum (v : Embedding) : Float32 := v.foldl (· + ·) (-0.0)

/-- The length of a vector. -/
def Embedding.norm (v : Embedding) : Float32 := (Embedding.sum (v.map (fun x => x * x))).sqrt

/-- Cosine of the angle between two vectors; zero where their dimensions differ or one is zero. -/
def cosine (a b : Embedding) : Float32 :=
  if a.length ≠ b.length then 0.0
  else
    let dot := Embedding.sum (List.zipWith (· * ·) a b)
    let na := a.norm
    let nb := b.norm
    if na == 0.0 || nb == 0.0 then 0.0 else dot / (na * nb)

/-- Candidates by descending score; equal scores keep their order. Scores are meant to be numbers: one that is
not compares with no score, and a list with such scores has no order to be brought into. -/
def byScore (scored : List (α × Float32)) : List (α × Float32) :=
  scored.mergeSort (fun a b => !(a.2 < b.2))

/-- The `most` best candidates with their scores, none below the cutoff. -/
def nearest (query : Embedding) (candidates : List (α × Embedding)) (most : Nat)
    (cutoff : Option Float32) : List (α × Float32) :=
  let scored := candidates.map (fun c => (c.1, cosine query c.2))
  let kept := scored.filter (fun c => cutoff.all (fun least => least ≤ c.2))
  (byScore kept).take most

end CorpusIndex
