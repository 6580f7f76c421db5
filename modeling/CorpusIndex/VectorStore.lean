import CorpusIndex.Collaborator
import CorpusIndex.Embedding.Similarity
import CorpusIndex.Node.Format

/-!
# Stores of vectors

Vectors in the order they were first added, compared one by one with a query. A vector of the wrong
dimension is refused before anything changes.
-/
namespace CorpusIndex

structure VectorStore where
  dimension : Nat
  entries : List VectorEntry := []
  deriving DecidableEq, Inhabited, Repr

namespace VectorStore

def size (s : VectorStore) : Nat := s.entries.length
def isEmpty (s : VectorStore) : Bool := s.entries.isEmpty

def embedding? (s : VectorStore) (id : String) : Option Embedding :=
  (s.entries.find? (·.id == id)).map (·.embedding)

/-- Entries with `e` in the place of the one with its id, or at the end. -/
def putEntry (e : VectorEntry) : List VectorEntry → List VectorEntry
  | [] => [e]
  | d :: rest => if d.id = e.id then e :: rest else d :: putEntry e rest

/-- The first entry of a wrong dimension. -/
def misfit? (dimension : Nat) (entries : List VectorEntry) : Option Fault :=
  (entries.find? (fun e => e.embedding.length ≠ dimension)).map
    (fun e => .vectorDimension e.id e.embedding.length dimension)

/-- Add or replace entries. -/
def add (s : VectorStore) (entries : List VectorEntry) : Except Fault (VectorStore × List String) :=
  match misfit? s.dimension entries with
  | some f => .error f
  | none => .ok ({ s with entries := entries.foldl (fun es e => putEntry e es) s.entries },
      entries.map (·.id))

/-- The nearest entries that pass a filter. -/
def query (s : VectorStore) (v : Embedding) (most : Nat) (filter : Option MetadataFilter) :
    Except Fault (List (String × Float32)) :=
  if v.length ≠ s.dimension then .error (.queryDimension v.length s.dimension)
  else
    let passing := s.entries.filter (fun e => filter.all (·.accepts e.metadata))
    .ok (nearest v (passing.map (fun e => (e.id, e.embedding))) most none)

/-- Remove the entries of a document. -/
def delete (s : VectorStore) (doc : String) : VectorStore :=
  { s with entries := s.entries.filter (fun e => e.document != some doc) }

/-- A store kept in a part of the state, as an engine. -/
def engine {σ : Type} (slot : Slot σ VectorStore) : VectorEngine σ where
  add entries := do
    let (s, ids) ← (slot.get (← get)).add entries
    modify (slot.set s)
    return ids
  query v most filter := do (slot.get (← get)).query v most filter
  delete doc := modify fun s => slot.set ((slot.get s).delete doc) s

/-! ### Persisted form -/

def fileName : String := "vector_store.json"

def entryToJson (e : VectorEntry) : Json :=
  .present [
    ("id", some (.string e.id)),
    ("embedding", some e.embedding.toJson),
    ("ref_doc_id", e.document.map .string),
    ("metadata", if e.metadata.isEmpty then none else some e.metadata.toJson)]

def toJson (s : VectorStore) : Json :=
  .object [("dimension", .ofNat s.dimension), ("entries", .array (s.entries.map entryToJson))]

def entryFields : List String := ["id", "embedding", "ref_doc_id", "metadata"]

open Json in
def entryOfJson (j : Json) : Decoded VectorEntry := do
  let fs ← record entryFields j
  return {
    id := ← fs.required "id" asString
    embedding := ← fs.required "embedding" Embedding.ofJson
    document := ← fs.optional "ref_doc_id" none (asOption asString)
    metadata := ← fs.optional "metadata" ∅ Metadata.ofJson }

open Json in
def shape : Shape := .record [("dimension", .any), ("entries", .list (.ofFields entryFields))]

open Json in
def ofJson (j : Json) : Decoded VectorStore := do
  let fs ← record ["dimension", "entries"] j
  return {
    dimension := ← fs.required "dimension" asNat
    entries := ← fs.required "entries" (asList entryOfJson) }

/-- A store from the content of the file at `path`. Every vector has to have the store's dimension. -/
def load (path : String) (content : Except FileFault String) : Except Fault VectorStore := do
  let text ← content.mapError (fun e => .within ("reading " ++ path) (.file e))
  let s ← (Json.decodeText shape ofJson text).mapError
    (fun e => .within ("parsing " ++ path) (.unreadable e))
  match misfit? s.dimension s.entries with
  | some f => throw f
  | none => return s

end VectorStore
end CorpusIndex
