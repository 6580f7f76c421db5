import CorpusIndex.Collaborator
import CorpusIndex.Embedding.Similarity
import CorpusIndex.Index.NodeList
import CorpusIndex.Text.Alphanumeric
import CorpusIndex.Text.Blank

/-!
# Answers from a list

All listed nodes in order, or those nearest to the query, in either case only the ones that pass a
filter of required and excluded words.
-/
namespace CorpusIndex

variable {σ : Type}

/-- How a list is searched. -/
inductive ListMode where
  | all
  | embedding
  deriving DecidableEq, Inhabited, Repr

namespace ListMode

def name : ListMode → String
  | .all => "default"
  | .embedding => "embedding"

def ofName : String → Except Failure ListMode
  | "default" => .ok .all
  | "embedding" => .ok .embedding
  | other => .error (.invalid (.unknownListMode other))

end ListMode

/-- Words a text must and must not contain. -/
structure WordFilter where
  required : List String := []
  excluded : List String := []
  deriving DecidableEq, Inhabited, Repr

/-- Words of a text: runs of alphanumeric characters and underscores. -/
def wordsIn (text : String) : List String := (Text.runs Text.isWordChar text.toList).map String.ofList

/-- Whole words count, and their case does. -/
def WordFilter.accepts (f : WordFilter) (text : String) : Bool :=
  let present := wordsIn text
  f.required.all present.contains && !f.excluded.any present.contains

namespace NodeList

/-- The listed nodes that pass a filter. -/
def candidates (l : NodeList) (store : NodeStore) (filter : WordFilter) : Except Failure (List Node) := do
  return (← store.resolveAll l.nodes).filter (fun n => filter.accepts n.text)

/-- Nodes nearest to a query, scored. -/
def rank (e : Embedder σ) (most : Nat) (q : Query) (nodes : List Node) : Action σ Retrieval := do
  let v ← q.embed e
  let embeddings ← e.embedNodes nodes
  return (nearest v (nodes.zip embeddings) most none).foldl (fun r c => r.addScored c.1.id c.1 c.2) {}

/-- The answer of a list: everything, or the `most` nearest nodes where an embedder is given. -/
def retrieve (l : NodeList) (store : NodeStore) (ranking : Option (Embedder σ × Nat)) (filter : WordFilter) :
    Retriever σ := fun q => do
  if l.isEmpty then return {}
  let nodes ← l.candidates store filter
  match ranking with
  | none => return { hits := nodes.map (fun n => { node := n }) }
  | some (e, most) => rank e most q nodes

end NodeList
end CorpusIndex
