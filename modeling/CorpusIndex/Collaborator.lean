import CorpusIndex.Failure
import CorpusIndex.Index.RelationGraph
import CorpusIndex.Retrieval
import CorpusIndex.Text.Search

/-!
# Collaborators

Embedders, language models, extractors and vector engines are what the library is given. Each of them
may keep a state of its own in `σ`, and the state it reached stays when it fails. What they report as
a fault becomes an external failure of the operation that called them.
-/
namespace CorpusIndex

/-- A collaborator's answer. -/
abbrev Call (σ α : Type) := ExceptT Fault (StateM σ) α

/-- An operation of the library that calls collaborators. -/
abbrev Action (σ α : Type) := ExceptT Failure (StateM σ) α

/-- A part of a state. -/
structure Slot (σ τ : Type) where
  get : σ → τ
  set : τ → σ → σ

variable {σ τ α : Type}

namespace Call

/-- Run in a part of a larger state. -/
def within (slot : Slot σ τ) (c : Call τ α) : Call σ α :=
  ExceptT.mk fun s =>
    let (a, t) := c.run (slot.get s)
    (a, slot.set t s)

/-- A fault counts as an external failure. -/
def external (c : Call σ α) : Action σ α :=
  ExceptT.mk do
    match ← c.run with
    | .ok a => return .ok a
    | .error f => return .error (.external (.fault f))

end Call

/-- Turns texts into vectors. -/
structure Embedder (σ : Type) where
  dim : Nat
  embedBatch : List String → Call σ (List Embedding)

namespace Embedder

def embedQuery (e : Embedder σ) (text : String) : Call σ Embedding := do
  match (← e.embedBatch [text]).getLast? with
  | some v => return v
  | none => throw .noQueryVector

/-- Embeddings of nodes, in order: stored ones as they are, all others from one batch. -/
def embedNodes (e : Embedder σ) (nodes : List Node) : Action σ (List Embedding) := do
  let missing := (nodes.filter (·.embedding.isNone)).map (·.text)
  let fresh ← if missing.isEmpty then pure [] else (e.embedBatch missing).external
  if fresh.length ≠ missing.length then
    throw (.external (.fault (.vectorCount fresh.length missing.length)))
  return filled nodes fresh
where
  /-- Stored embeddings, with the fresh ones in the gaps. -/
  filled : List Node → List Embedding → List Embedding
    | [], _ => []
    | n :: rest, fresh =>
      match n.embedding, fresh with
      | some v, fresh => v :: filled rest fresh
      | none, v :: fresh => v :: filled rest fresh
      | none, [] => [] :: filled rest []

end Embedder

/-- The embedding of a query: its own, or a fresh one. -/
def Query.embed (q : Query) (e : Embedder σ) : Action σ Embedding :=
  match q.embedding with
  | some v => pure v
  | none => (e.embedQuery q.text).external

/-- A template with places in braces, and the values that go there. -/
structure Prompt where
  template : String
  bindings : List (String × String)
  deriving DecidableEq, Inhabited, Repr

namespace Prompt

/-- The place of a variable: its name in braces. -/
def place (name : String) : List Char := '\x7b' :: name.toList ++ ['\x7d']

/-- Every variable in turn put into all of its places; places without a variable stay. -/
def text (p : Prompt) : String :=
  String.ofList (p.bindings.foldl
    (fun s v => Text.replaceAll (place v.1) v.2.toList s) p.template.toList)

end Prompt

/-- Completes prompts. -/
structure LanguageModel (σ : Type) where
  complete : Prompt → Call σ String

/-- Picks the keywords of a text, at most a given number. -/
structure KeywordExtractor (σ : Type) where
  keywords : (text : String) → (most : Nat) → Call σ (List String)

/-- Picks the facts of a text, at most a given number. -/
structure TripletExtractor (σ : Type) where
  triplets : (text : String) → (most : Nat) → Call σ (List Triplet)

/-- A vector as an engine takes it. -/
structure VectorEntry where
  id : String
  embedding : Embedding
  document : Option String := none
  metadata : Metadata := ∅
  deriving DecidableEq, Inhabited, Repr

/-- Keeps vectors and finds the nearest ones. -/
structure VectorEngine (σ : Type) where
  /-- the ids under which entries were kept, in their order -/
  add : List VectorEntry → Call σ (List String)
  /-- ids and scores, best first -/
  query : Embedding → (most : Nat) → Option MetadataFilter → Call σ (List (String × Float32))
  delete : (document : String) → Call σ Unit

/-- Anything that answers queries. -/
abbrev Retriever (σ : Type) := Query → Action σ Retrieval

end CorpusIndex
