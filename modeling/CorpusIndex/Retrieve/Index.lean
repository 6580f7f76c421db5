import CorpusIndex.Index
import CorpusIndex.Retrieve.Keywords
import CorpusIndex.Retrieve.List
import CorpusIndex.Retrieve.Tree
import CorpusIndex.Retrieve.Vectors
import CorpusIndex.Settings

/-!
# Answers from any index structure

One way to search for each kind of structure, with the same collaborators and settings for all.
-/
namespace CorpusIndex

variable {σ : Type}

/-- What a search has at hand. -/
structure SearchContext (σ : Type) where
  store : NodeStore
  embedder : Embedder σ
  extractor : KeywordExtractor σ
  model : Option (LanguageModel σ) := none
  engine : Option (VectorEngine σ) := none
  settings : RetrievalSettings := {}
  treeMode : TreeMode := .selectLeafEmbedding
  listMode : ListMode := .all

namespace SearchContext

def keywordLimits (c : SearchContext σ) : KeywordLimits :=
  ⟨c.settings.maxKeywordsPerQuery, c.settings.chunksPerQuery⟩

/-- How a forest is traversed; following a model's choices needs a model. -/
def traversal (c : SearchContext σ) (tree : String) : Except Failure (Forest.Traversal σ) :=
  match c.treeMode with
  | .selectLeaf =>
    match c.model with
    | some model => .ok (.descent (.forQuery model))
    | none => .error (.invalid (.modelNeeded tree))
  | .selectLeafEmbedding => .ok (.descent (.byEmbedding c.embedder))
  | .allLeaf => .ok .leaves
  | .root => .ok .roots

/-- The way to search a structure. -/
def retriever (c : SearchContext σ) : Index → Except Failure (Retriever σ)
  | .tree f => do
    return f.retrieve c.store (← c.traversal f.id) { branchFactor := c.settings.branchFactor }
  | .keywordTable t => .ok (t.retrieve c.store c.extractor c.keywordLimits)
  | .list l =>
    .ok (l.retrieve c.store
      (match c.listMode with
        | .all => none
        | .embedding => some (c.embedder, c.settings.topK)) {})
  | .vectors m => .ok (m.retrieve c.store c.embedder c.engine c.settings.topK none)
  | .relations g => .ok (g.retrieve c.store c.extractor c.keywordLimits)

end SearchContext
end CorpusIndex
