import CorpusIndex.NodeStore

/-!
# Lists of nodes

Node ids in the order they were added, none of them twice.
-/
namespace CorpusIndex

structure NodeList where
  id : String
  summary : Option String := none
  nodes : List String := []
  deriving DecidableEq, Inhabited, Repr

namespace NodeList

def contains (l : NodeList) (id : String) : Bool := l.nodes.contains id
def size (l : NodeList) : Nat := l.nodes.length
def isEmpty (l : NodeList) : Bool := l.nodes.isEmpty

/-- The list with `id` at its end, unless it is listed already. -/
def add (l : NodeList) (id : String) : NodeList :=
  if l.contains id then l else { l with nodes := l.nodes ++ [id] }

def deleteDocument (l : NodeList) (doc : String) (store : NodeStore) :
    Except Failure (NodeList × List String) := do
  let nodes ← l.nodes.mapM (fun id => do return (id, ← store.resolve id))
  let doomed := (nodes.filter (fun n => n.2.document == some doc)).map (·.1)
  if doomed.isEmpty then .error (.absent (.document doc (.list l.id)))
  else return ({ l with nodes := l.nodes.filter (fun id => !doomed.contains id) }, doomed)

end NodeList
end CorpusIndex
