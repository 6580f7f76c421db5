import CorpusIndex.Node

/-!
# Retrieved nodes

Hits in order, and beside them the scores a traversal recorded on its way.
-/
namespace CorpusIndex

/-- A node and the score a traversal gave it, if any. -/
structure Hit where
  node : Node
  score : Option Float32 := none
  deriving DecidableEq, Inhabited, Repr

/-- Recorded similarity of nodes. -/
structure SimilarityRecord where
  scores : SortedMap String Float32 := ∅
  deriving DecidableEq, Inhabited, Repr

namespace SimilarityRecord

/-- The latest score of a node counts. -/
def add (r : SimilarityRecord) (id : String) (score : Float32) : SimilarityRecord :=
  ⟨r.scores.insert id score⟩

def find? (r : SimilarityRecord) (id : String) : Option Float32 := r.scores.get? id

/-- Scores of `s` replace those of `r`. -/
def extend (r s : SimilarityRecord) : SimilarityRecord := ⟨r.scores.union s.scores⟩

def size (r : SimilarityRecord) : Nat := r.scores.size
def isEmpty (r : SimilarityRecord) : Bool := r.scores.isEmpty

end SimilarityRecord

structure Retrieval where
  hits : List Hit := []
  similarity : SimilarityRecord := {}
  deriving DecidableEq, Inhabited, Repr

namespace Retrieval

/-- A hit whose score is recorded under `id` too. -/
def addScored (r : Retrieval) (id : String) (n : Node) (score : Float32) : Retrieval :=
  ⟨r.hits ++ [⟨n, some score⟩], r.similarity.add id score⟩

end Retrieval

/-- A question, with its embedding once it has one. -/
structure Query where
  text : String
  embedding : Option Embedding := none
  deriving DecidableEq, Inhabited, Repr

end CorpusIndex
