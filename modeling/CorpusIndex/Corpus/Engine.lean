import CorpusIndex.Collaborator
import CorpusIndex.Corpus
import CorpusIndex.Groups

/-!
# Vectors in a corpus and in an engine

Vectors of a corpus may live in an engine as well. Nodes without an embedding are embedded in batches, and
then the whole batch of nodes enters the map, and the engine if one is bound. The map changes only if every
step succeeds; embeddings that were computed stay on the nodes in any case. A document has to leave both, and
the corpus changes only if the engine has let go of it.
-/
namespace CorpusIndex

variable {σ : Type}

/-! ### Inserting nodes -/

namespace VectorMap

/-- What an insertion leaves: the map, the nodes with their embeddings, and the vector ids. -/
structure Insertion where
  map : VectorMap
  nodes : List Node
  result : Except Failure (List String)

/-- Embeddings put onto nodes one after another, up to the first of a wrong dimension. -/
def takeVectors (dim : Nat) : List Node → List Embedding → List Node × Except Failure Unit
  | n :: rest, v :: vs =>
    if v.length ≠ dim then
      (n :: rest, .error (.external (.vectorDimension n.id v.length dim)))
    else
      let (rest, r) := takeVectors dim rest vs
      ({ n with embedding := some v } :: rest, r)
  | nodes, _ => (nodes, .ok ())

/-- Embed one batch of nodes. -/
def embedBatch (e : Embedder σ) (batch : List Node) : StateM σ (List Node × Except Failure Unit) := do
  match ← ((e.embedBatch (batch.map (·.text))).external).run with
  | .error f => return (batch, .error f)
  | .ok vectors =>
    if vectors.length ≠ batch.length then
      return (batch, .error (.external (.fault (.vectorCount vectors.length batch.length))))
    else return takeVectors e.dim batch vectors

/-- Embed batches one after another, up to the first failure. -/
def embedBatches (e : Embedder σ) : List (List Node) → StateM σ (List Node × Except Failure Unit)
  | [] => return ([], .ok ())
  | batch :: rest => do
    match ← embedBatch e batch with
    | (nodes, .error f) => return (nodes ++ rest.flatten, .error f)
    | (nodes, .ok ()) =>
      let (more, r) ← embedBatches e rest
      return (nodes ++ more, r)

/-- Nodes with those that had no embedding replaced, in order. -/
def putBack : List Node → List Node → List Node
  | [], _ => []
  | n :: rest, done =>
    match n.embedding, done with
    | none, m :: done => m :: putBack rest done
    | _, done => n :: putBack rest done

/-- Embed the nodes that have no embedding, `batchSize` at a time. -/
def embedMissing (e : Embedder σ) (batchSize : Nat) (nodes : List Node) :
    StateM σ (List Node × Except Failure Unit) := do
  let missing := nodes.filter (·.embedding.isNone)
  let (done, r) ← embedBatches e (groups (max batchSize 1) missing)
  return (putBack nodes done, r)

/-- Enter nodes into the map, with the entries an engine is to take. -/
def enter : VectorMap → List Node → Except Failure (VectorMap × List VectorEntry)
  | m, [] => .ok (m, [])
  | m, n :: rest => do
    let embedding := n.embedding.getD []
    let (m, v) ← m.add n none
    let m := if m.backend.inProcess then m.embed v embedding else m
    let (m, entries) ← enter m rest
    return (m, ⟨v, embedding, n.document, n.metadata⟩ :: entries)

/-- Rebind proposed ids to the ones an engine assigned, pair by pair. -/
def rebindAll : VectorMap → List (String × String) → Except Failure VectorMap
  | m, [] => .ok m
  | m, (old, new) :: rest => do rebindAll (← m.rebind old new) rest

/-- Enter embedded nodes into the map and the engine. -/
def register (engine : Option (VectorEngine σ)) (m : VectorMap) (nodes : List Node) :
    Action σ (VectorMap × List String) := do
  let (m, entries) ← m.enter nodes
  let proposed := entries.map (·.id)
  let ids ← match engine with
    | some engine => (engine.add entries).external
    | none => pure proposed
  if ids.length ≠ proposed.length then throw (.external (.idCount ids.length proposed.length))
  return (← m.rebindAll (proposed.zip ids), ids)

/-- Insert nodes into a map. -/
def insert (e : Embedder σ) (engine : Option (VectorEngine σ)) (batchSize : Nat) (m : VectorMap)
    (nodes : List Node) : StateM σ Insertion := do
  if !m.backend.inProcess && engine.isNone then
    return ⟨m, nodes, .error (.invalid (.engineNeeded m.id m.backend.name))⟩
  let (nodes, embedded) ← embedMissing e batchSize nodes
  match embedded with
  | .error f => return ⟨m, nodes, .error f⟩
  | .ok () =>
    match ← (register engine m nodes).run with
    | .error f => return ⟨m, nodes, .error f⟩
    | .ok (m, ids) => return ⟨m, nodes, .ok ids⟩

end VectorMap

/-! ### Deleting documents -/

namespace Corpus

/-- Some vector map has vectors of the document. -/
def listsVectorsOf (c : Corpus) (doc : String) : Bool :=
  c.indices.toList.any fun
    | .vectors m => m.documents.contains doc
    | _ => false

/-- Delete a document from the corpus and, if a vector map lists it, from the engine. The number of ids
dropped from the structures comes back. -/
def deleteEverywhere (engine : VectorEngine σ) (doc : String) (c : Corpus) : Action σ (Corpus × Nat) := do
  let (rest, dropped) ← c.deleteDocument doc
  if c.listsVectorsOf doc then (engine.delete doc).external
  return (rest, dropped.values.flatten.length)

end Corpus
end CorpusIndex
