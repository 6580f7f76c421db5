import CorpusIndex.Collaborator
import CorpusIndex.Index.KeywordTable

/-!
# Keywords and relations of nodes

Extractors are asked for a whole batch first. Only then are its nodes filed under their keywords, or their
facts embedded in one call, if an embedder is given, and stated.
-/
namespace CorpusIndex

variable {σ : Type}

namespace KeywordTable

/-- File a batch of nodes under the keywords of their texts. -/
def insert (x : KeywordExtractor σ) (most : Nat) (t : KeywordTable) (batch : List Node) :
    Action σ KeywordTable := do
  let found ← batch.mapM fun n => do return (n.id, ← (x.keywords n.text most).external)
  return found.foldl (fun t f => t.add f.2 f.1) t

def build (x : KeywordExtractor σ) (most : Nat) (id : String) (batch : List Node) :
    Action σ KeywordTable := insert x most { id } batch

end KeywordTable

namespace RelationGraph

/-- Texts of facts paired with the vectors an embedder returns for them. -/
def embedFacts (embedder : Option (Embedder σ)) (texts : List String) :
    Action σ (List (String × Embedding)) :=
  match embedder with
  | none => pure []
  | some e => if texts.isEmpty then pure [] else do return texts.zip (← (e.embedBatch texts).external)

/-- State the facts of a batch of nodes. -/
def insert (x : TripletExtractor σ) (most : Nat) (embedder : Option (Embedder σ)) (g : RelationGraph)
    (batch : List Node) : Action σ RelationGraph := do
  let found ← batch.mapM fun n => do return (n.id, ← (x.triplets n.text most).external)
  let vectors ← embedFacts embedder (found.flatMap (fun f => f.2.map Triplet.text))
  let g := found.foldl (fun g f => f.2.foldl (fun g t => g.upsert t f.1) g) g
  return vectors.foldl (fun g v => g.embed v.1 v.2) g

def build (x : TripletExtractor σ) (most : Nat) (embedder : Option (Embedder σ)) (id : String)
    (batch : List Node) : Action σ RelationGraph := insert x most embedder { id } batch

end RelationGraph
end CorpusIndex
