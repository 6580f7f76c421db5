import CorpusIndex.Index.Forest
import CorpusIndex.Index.KeywordTable
import CorpusIndex.Index.NodeList
import CorpusIndex.Index.RelationGraph
import CorpusIndex.Index.VectorMap

/-!
# Index structures

The closed family of structures over node ids, with what all of them can do.
-/
namespace CorpusIndex

inductive Index where
  | tree (f : Forest)
  | keywordTable (t : KeywordTable)
  | list (l : NodeList)
  | vectors (m : VectorMap)
  | relations (g : RelationGraph)
  deriving DecidableEq, Inhabited, Repr

namespace Index

def id : Index → String
  | .tree f => f.id
  | .keywordTable t => t.id
  | .list l => l.id
  | .vectors m => m.id
  | .relations g => g.id

def summary : Index → Option String
  | .tree f => f.summary
  | .keywordTable t => t.summary
  | .list l => l.summary
  | .vectors m => m.summary
  | .relations g => g.summary

def setSummary (s : String) : Index → Index
  | .tree f => .tree { f with summary := some s }
  | .keywordTable t => .keywordTable { t with summary := some s }
  | .list l => .list { l with summary := some s }
  | .vectors m => .vectors { m with summary := some s }
  | .relations g => .relations { g with summary := some s }

/-- Name of the kind, as it is persisted. -/
def tag : Index → String
  | .tree _ => "tree"
  | .keywordTable _ => "keyword_table"
  | .list _ => "list"
  | .vectors _ => "vector_store"
  | .relations _ => "kg"

/-- Name of the kind, together with the backend of a vector map. -/
def kind : Index → String
  | .vectors m => "vector_store/" ++ m.backend.name
  | i => i.tag

/-- Every node id the structure refers to. -/
def nodeIds : Index → List String
  | .tree f => f.nodeIds
  | .keywordTable t => t.nodeIds
  | .list l => l.nodes
  | .vectors m => m.nodeIds
  | .relations g => g.nodeIds

def isEmpty : Index → Bool
  | .tree f => f.isEmpty
  | .keywordTable t => t.isEmpty
  | .list l => l.isEmpty
  | .vectors m => m.isEmpty
  | .relations g => g.isEmpty

/-- A structure that came out of a deletion, or the old one with the reason there is none. -/
def afterDeletion (old : Index) (wrap : α → Index) :
    Except Failure (α × List String) → Index × Except Failure (List String)
  | .ok (a, ids) => (wrap a, .ok ids)
  | .error e => (old, .error e)

/-- Drop a document. The ids dropped are vector ids for a vector map, node ids for the others. -/
def deleteDocument (i : Index) (doc : String) (store : NodeStore) :
    Index × Except Failure (List String) :=
  match i with
  | .tree f =>
    let (g, ids) := f.deleteDocument doc store
    (.tree g, ids)
  | .keywordTable t => afterDeletion i .keywordTable (t.deleteDocument doc store)
  | .list l => afterDeletion i .list (l.deleteDocument doc store)
  | .vectors m => afterDeletion i .vectors (m.deleteDocument doc)
  | .relations g => afterDeletion i .relations (g.deleteDocument doc store)

/-- The structure is consistent in itself. -/
def checkStructure : Index → Except Failure Unit
  | .tree f => f.validate
  | .vectors m => m.validate
  | _ => .ok ()

/-- The structure is consistent in itself and every id in it resolves. -/
def validate (i : Index) (store : NodeStore) : Except Failure Unit := do
  i.checkStructure
  i.nodeIds.forM (fun id => do let _ ← store.resolve id)

end Index
end CorpusIndex
