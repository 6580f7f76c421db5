import CorpusIndex.Failure
import CorpusIndex.Node.Format

/-!
# The store of nodes

Index structures hold ids only and the store holds the nodes. `node` looks up an id a caller gave,
`resolve` one that came out of an index structure; the two differ in what a miss means.
-/
namespace CorpusIndex

structure NodeStore where
  nodes : SortedMap String Node := ∅
  deriving DecidableEq, Inhabited, Repr

namespace NodeStore

def contains (s : NodeStore) (id : String) : Bool := s.nodes.contains id
def size (s : NodeStore) : Nat := s.nodes.size
def isEmpty (s : NodeStore) : Bool := s.nodes.isEmpty
def ids (s : NodeStore) : List String := s.nodes.keys
def toList (s : NodeStore) : List Node := s.nodes.values

def put (s : NodeStore) (n : Node) : NodeStore := ⟨s.nodes.insert n.id n⟩

/-- The first reason to refuse a batch: an id that comes twice in it, or is stored already. -/
def refusal? (s : NodeStore) (replace : Bool) : (seen : List String) → List Node → Option Repeated
  | _, [] => none
  | seen, n :: rest =>
    if seen.contains n.id then some (.nodeInBatch n.id)
    else if !replace && s.contains n.id then some (.storedNode n.id)
    else s.refusal? replace (n.id :: seen) rest

/-- Add a batch of nodes, or none of them. Stored nodes are replaced only if `replace` is set. -/
def add (s : NodeStore) (batch : List Node) (replace : Bool) : Except Failure NodeStore :=
  match s.refusal? replace [] batch with
  | some r => .error (.repeated r)
  | none => .ok (batch.foldl put s)

def node (s : NodeStore) (id : String) : Except Failure Node :=
  match s.nodes.get? id with
  | some n => .ok n
  | none => .error (.absent (.node id))

def resolve (s : NodeStore) (id : String) : Except Failure Node :=
  match s.nodes.get? id with
  | some n => .ok n
  | none => .error (.corrupt (.danglingNode id))

def nodesOf (s : NodeStore) (ids : List String) : Except Failure (List Node) := ids.mapM s.node

def resolveAll (s : NodeStore) (ids : List String) : Except Failure (List Node) := ids.mapM s.resolve

def update (s : NodeStore) (id : String) (f : Node → Node) : Except Failure NodeStore := do
  let n ← s.node id
  return ⟨s.nodes.insert id (f n)⟩

def setText (s : NodeStore) (id text : String) : Except Failure NodeStore :=
  s.update id (fun n => { n with text })

def setEmbedding (s : NodeStore) (id : String) (e : Embedding) : Except Failure NodeStore :=
  s.update id (fun n => { n with embedding := some e })

/-- Put the embeddings of nodes onto the stored nodes of the same ids. -/
def takeEmbeddings (s : NodeStore) (nodes : List Node) : NodeStore :=
  nodes.foldl
    (fun s n =>
      match n.embedding with
      | some e => (s.setEmbedding n.id e).toOption.getD s
      | none => s)
    s

def erase (s : NodeStore) (id : String) : Except Failure (NodeStore × Node) := do
  let n ← s.node id
  return (⟨s.nodes.erase id⟩, n)

/-- Nodes of one document, in id order. -/
def ofDocument (s : NodeStore) (doc : String) : List Node :=
  s.toList.filter (fun n => n.document == some doc)

/-- Remove the nodes of a document; one at least has to be there. -/
def deleteDocument (s : NodeStore) (doc : String) : Except Failure (NodeStore × List String) :=
  let ids := (s.ofDocument doc).map (·.id)
  if ids.isEmpty then .error (.absent (.document doc .store))
  else .ok (⟨ids.foldl SortedMap.erase s.nodes⟩, ids)

def documents (s : NodeStore) : SortedSet String := .ofElems (s.toList.filterMap (·.document))

/-- Nodes reached from `n` along first next links among `members`, up to one in `placed`. -/
def chain (members : SortedMap String Node) :
    (fuel : Nat) → (placed : SortedSet String) → Option Node → List Node
  | 0, _, _ => []
  | _, _, none => []
  | fuel + 1, placed, some n =>
    if placed.contains n.id then []
    else n :: chain members fuel (placed.add n.id) (n.next?.bind members.get?)

/-- The nodes of a document along its chains: from every node without a predecessor in the document,
in id order, and after that the nodes no chain has reached. -/
def chunksOf (s : NodeStore) (doc : String) : List Node :=
  let members := SortedMap.ofList ((s.ofDocument doc).map (fun n => (n.id, n)))
  let heads := members.values.filter (fun n => n.previous?.all (fun p => !members.contains p))
  let chained := heads.foldl
    (fun (out : List Node) h =>
      out ++ chain members (members.size + 1) (.ofElems (out.map (·.id))) (some h))
    []
  let placed := SortedSet.ofElems (chained.map (·.id))
  chained ++ members.values.filter (fun n => !placed.contains n.id)

/-- Number of first previous links from a node to the start of its chain. `visited` are the ids seen. -/
def stepsBack (s : NodeStore) (start : String) :
    (fuel : Nat) → (visited : SortedSet String) → Node → Except Failure Nat
  | 0, _, _ => .error (.corrupt (.linkCycle start))
  | fuel + 1, visited, n =>
    match n.previous? with
    | none => .ok 0
    | some p =>
      if visited.contains n.id then .error (.corrupt (.linkCycle start))
      else match s.nodes.get? p with
        | none => .ok 0
        | some m => (· + 1) <$> s.stepsBack start fuel (visited.add n.id) m

/-- Place of a node in its chain, counted from zero. -/
def chainPosition (s : NodeStore) (id : String) : Except Failure Nat := do
  s.stepsBack id (s.size + 2) ∅ (← s.node id)

def toJson (s : NodeStore) : Json := .object [("docs", SortedMap.toJson s.nodes Node.toJson)]

open Json in
def shape : Shape := .record [("docs", .map Node.shape)]

open Json in
def ofJson (j : Json) : Decoded NodeStore := do
  let fs ← record ["docs"] j
  return ⟨← fs.required "docs" (asStringMap Node.ofJson)⟩

end NodeStore
end CorpusIndex
