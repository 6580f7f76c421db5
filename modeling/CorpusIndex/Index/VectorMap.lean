import CorpusIndex.NodeStore

/-!
# Vector maps

Which node a vector id stands for, which vector ids a document has, and, for the in-process backend,
the embeddings in the order they came.
-/
namespace CorpusIndex

/-- Where vectors are kept. -/
inductive Backend where
  | simple
  | faiss
  | weaviate
  | pinecone
  | qdrant
  | chroma
  | opensearch
  deriving DecidableEq, Inhabited, Repr

namespace Backend

def name : Backend → String
  | .simple => "simple"
  | .faiss => "faiss"
  | .weaviate => "weaviate"
  | .pinecone => "pinecone"
  | .qdrant => "qdrant"
  | .chroma => "chroma"
  | .opensearch => "opensearch"

def all : List Backend := [.simple, .faiss, .weaviate, .pinecone, .qdrant, .chroma, .opensearch]

def ofName? (s : String) : Option Backend := all.find? (·.name == s)

theorem ofName?_name (b : Backend) : ofName? b.name = some b := by cases b <;> rfl

def ofName (s : String) : Except Failure Backend :=
  match ofName? s with
  | some b => .ok b
  | none => .error (.invalid (.unknownBackend s))

/-- Embeddings live in the map itself and not in an engine. -/
def inProcess (b : Backend) : Bool := b == .simple

end Backend

structure VectorMap where
  id : String
  summary : Option String := none
  backend : Backend := .simple
  /-- vector id to node id -/
  nodes : SortedMap String String := ∅
  /-- document to its vector ids -/
  documents : SortedMap String (List String) := ∅
  /-- vector id and embedding, in the order of insertion -/
  embeddings : List (String × Embedding) := []
  deriving DecidableEq, Inhabited, Repr

namespace VectorMap

def nodeIds (m : VectorMap) : List String := m.nodes.values
def size (m : VectorMap) : Nat := m.nodes.size
def isEmpty (m : VectorMap) : Bool := m.nodes.isEmpty

/-- Map a vector id, the node's own id if none is given, to a node. The same pair again changes
nothing. -/
def add (m : VectorMap) (n : Node) (vectorId : Option String) : Except Failure (VectorMap × String) :=
  let v := vectorId.getD n.id
  match m.nodes.get? v with
  | some holder => if holder = n.id then .ok (m, v) else .error (.repeated (.vectorId v holder))
  | none =>
    .ok ({ m with
      nodes := m.nodes.insert v n.id
      documents := match n.document with
        | some doc => m.documents.update doc [] (· ++ [v])
        | none => m.documents }, v)

/-- Entries with the embedding of `v` replaced in place, or added at the end. -/
def putEmbedding (v : String) (e : Embedding) : List (String × Embedding) → List (String × Embedding)
  | [] => [(v, e)]
  | (w, d) :: rest => if w = v then (v, e) :: rest else (w, d) :: putEmbedding v e rest

def embed (m : VectorMap) (v : String) (e : Embedding) : VectorMap :=
  { m with embeddings := putEmbedding v e m.embeddings }

def embedding? (m : VectorMap) (v : String) : Option Embedding := m.embeddings.lookup v

/-- Move everything under `old` to the vector id `new`. -/
def rebind (m : VectorMap) (old new : String) : Except Failure VectorMap :=
  if old = new then .ok m
  else match m.nodes.get? new, m.nodes.get? old with
    | some holder, _ => .error (.repeated (.vectorId new holder))
    | none, none => .error (.absent (.vectorId old m.id))
    | none, some n =>
      let renamed := fun v => if v = old then new else v
      .ok { m with
        nodes := (m.nodes.erase old).insert new n
        documents := m.documents.mapValues (fun _ vs => vs.map renamed)
        embeddings := m.embeddings.map (fun e => (renamed e.1, e.2)) }

def nodeOf (m : VectorMap) (v : String) : Except Failure String :=
  match m.nodes.get? v with
  | some n => .ok n
  | none => .error (.corrupt (.unmappedVector v m.id))

/-- Remove the vector ids of a document and give them back. -/
def deleteDocument (m : VectorMap) (doc : String) : Except Failure (VectorMap × List String) :=
  match m.documents.get? doc with
  | none => .error (.absent (.document doc (.vectors m.id)))
  | some vs =>
    .ok ({ m with
      documents := m.documents.erase doc
      nodes := vs.foldl SortedMap.erase m.nodes
      embeddings := m.embeddings.filter (fun e => !vs.contains e.1) }, vs)

/-- Every vector id listed for a document is mapped. -/
def validate (m : VectorMap) : Except Failure Unit :=
  m.documents.toList.forM fun (doc, vs) =>
    match vs.find? (fun v => !m.nodes.contains v) with
    | some v => .error (.corrupt (.unmappedListing doc v))
    | none => .ok ()

end VectorMap
end CorpusIndex
