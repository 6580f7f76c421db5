import CorpusIndex.Index.Format

/-!
# Corpora

A store of nodes together with the index structures over it. Deleting a document takes its nodes out
of every structure and then out of the store, or changes nothing.
-/
namespace CorpusIndex

/-- Index structures under their ids. -/
structure IndexStore where
  indices : SortedMap String Index := ∅
  deriving DecidableEq, Inhabited, Repr

namespace IndexStore

def ids (s : IndexStore) : List String := s.indices.keys
def toList (s : IndexStore) : List Index := s.indices.values
def size (s : IndexStore) : Nat := s.indices.size
def isEmpty (s : IndexStore) : Bool := s.indices.isEmpty

/-- Add a structure or replace the one with its id. -/
def put (s : IndexStore) (i : Index) : IndexStore := ⟨s.indices.insert i.id i⟩

def add (s : IndexStore) (i : Index) : Except Failure IndexStore :=
  if s.indices.contains i.id then .error (.repeated (.index i.id)) else .ok (s.put i)

def index (s : IndexStore) (id : String) : Except Failure Index :=
  match s.indices.get? id with
  | some i => .ok i
  | none => .error (.absent (.index id))

/-- Put a changed structure where one was found. -/
def replace (s : IndexStore) (id : String) (i : Index) : IndexStore := ⟨s.indices.insert id i⟩

def erase (s : IndexStore) (id : String) : Except Failure (IndexStore × Index) := do
  let i ← s.index id
  return (⟨s.indices.erase id⟩, i)

open Json

def toJson (s : IndexStore) : Json :=
  .object [("structs", SortedMap.toJson s.indices Index.toJson)]

def shape : Shape := .record [("structs", .map .any)]

/-- The structures are checked where they are written, so that the first fault is the one reported. -/
def ofJson (j : Json) : Decoded IndexStore := do
  let fs ← record ["structs"] j (fun _ structs => do let _ ← asStringMap Index.ofJson structs)
  return ⟨← fs.required "structs" (asStringMap Index.ofJson)⟩

end IndexStore

structure Corpus where
  store : NodeStore := {}
  indices : IndexStore := {}
  deriving DecidableEq, Inhabited, Repr

namespace Corpus

/-- The structures check out against the store. -/
def validate (c : Corpus) : Except Failure Unit := c.indices.toList.forM (·.validate c.store)

/-- What is left of the structures, the ids each one dropped, and the dropped tree ids. -/
structure Deletion where
  indices : SortedMap String Index
  dropped : SortedMap String (List String) := ∅
  treeIds : List String := []

/-- Delete a document from the structures, one after another. A structure without it stays as it is;
any other failure ends the deletion. -/
def deleteFromIndices (doc : String) (store : NodeStore) :
    Deletion → List (String × Index) → Except Failure Deletion
  | d, [] => .ok d
  | d, (key, i) :: rest =>
    match i.deleteDocument doc store with
    | (j, .ok ids) =>
      deleteFromIndices doc store {
        indices := d.indices.insert key j
        dropped := d.dropped.insert j.id ids
        treeIds := match i with
          | .tree _ => d.treeIds ++ ids
          | _ => d.treeIds } rest
    | (j, .error (.absent _)) =>
      deleteFromIndices doc store { d with indices := d.indices.insert key j } rest
    | (_, .error e) => .error e

/-- A stored node that comes from no document. -/
def isDerived (c : Corpus) (id : String) : Bool := (c.store.nodes.get? id).any (·.document.isNone)

/-- Take nodes out of the store, each of which has to be there. -/
def eraseAll : NodeStore → List String → Except Failure NodeStore
  | s, [] => .ok s
  | s, id :: rest => do eraseAll (← s.erase id).1 rest

/-- Delete a document everywhere. Derived nodes that trees drop leave the store too. The ids each
structure dropped come back under its id. -/
def deleteDocument (c : Corpus) (doc : String) :
    Except Failure (Corpus × SortedMap String (List String)) := do
  if (c.store.ofDocument doc).isEmpty then .error (.absent (.document doc .store))
  let d ← deleteFromIndices doc c.store { indices := c.indices.indices } c.indices.indices.toList
  let derived : SortedSet String := .ofElems (d.treeIds.filter c.isDerived)
  let (store, _) ← c.store.deleteDocument doc
  let store ← eraseAll store derived.elems
  return (⟨store, ⟨d.indices⟩⟩, d.dropped)

/-! ### Persistence -/

def storeFile : String := "docstore.json"
def indicesFile : String := "index_store.json"

/-- Persisted files and their texts. -/
def files (c : Corpus) : List (String × String) :=
  [(storeFile, c.store.toJson.pretty), (indicesFile, c.indices.toJson.pretty)]

/-- A corpus from the texts of its files, checked. -/
def ofTexts (store indices : Except Failure String) : Except Failure Corpus := do
  let store ← (Json.decodeText NodeStore.shape NodeStore.ofJson (← store)).mapError .unreadable
  let indices ← (Json.decodeText IndexStore.shape IndexStore.ofJson (← indices)).mapError .unreadable
  let c : Corpus := ⟨store, indices⟩
  c.validate
  return c

end Corpus
end CorpusIndex
