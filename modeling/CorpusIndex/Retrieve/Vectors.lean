import CorpusIndex.Collaborator
import CorpusIndex.Embedding.Similarity
import CorpusIndex.Index.VectorMap

/-!
# Answers from a vector map

The nodes of the vectors nearest to the query, found by an engine if one is bound and otherwise among
the embeddings in the map.
-/
namespace CorpusIndex.VectorMap

variable {σ : Type}

/-- Embeddings whose nodes pass a filter. -/
def passing (m : VectorMap) (store : NodeStore) (filter : Option MetadataFilter) :
    Except Failure (List (String × Embedding)) :=
  match filter with
  | none => .ok m.embeddings
  | some f => m.embeddings.filterM fun e => do
    let n ← store.resolve (← m.nodeOf e.1)
    return f.accepts n.metadata

/-- Vector ids and scores, best first. -/
def search (m : VectorMap) (store : NodeStore) (engine : Option (VectorEngine σ)) (most : Nat)
    (filter : Option MetadataFilter) (v : Embedding) : Action σ (List (String × Float32)) :=
  match engine with
  | some engine => (engine.query v most filter).external
  | none =>
    if m.backend.inProcess then do
      return nearest v (← m.passing store filter) most none
    else throw (.invalid (.engineNeeded m.id m.backend.name))

def retrieve (m : VectorMap) (store : NodeStore) (e : Embedder σ) (engine : Option (VectorEngine σ))
    (most : Nat) (filter : Option MetadataFilter) : Retriever σ := fun q => do
  if m.isEmpty then return {}
  let v ← q.embed e
  (← m.search store engine most filter v).foldlM
    (fun out found => do
      let id ← m.nodeOf found.1
      return out.addScored id (← store.resolve id) found.2)
    {}

end CorpusIndex.VectorMap
