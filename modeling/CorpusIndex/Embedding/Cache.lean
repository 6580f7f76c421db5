import CorpusIndex.Digest.Blake3
import CorpusIndex.Embedding.Hashed
import CorpusIndex.Node.Format

/-!
# Cached embeddings

Vectors are kept under the digest of their text. A batch asks the embedder behind the cache for the
texts that are missing only, in one call.
-/
namespace CorpusIndex

structure EmbeddingCache where
  vectors : SortedMap String Embedding := ∅
  deriving DecidableEq, Inhabited, Repr

/-- An embedder behind a cache. Saved vectors carry its id, and only those are taken back. -/
structure CachedEmbedder (σ : Type) where
  inner : Embedder σ
  id : String
  slot : Slot σ EmbeddingCache

namespace EmbeddingCache

def size (c : EmbeddingCache) : Nat := c.vectors.size
def isEmpty (c : EmbeddingCache) : Bool := c.vectors.isEmpty

def find? (c : EmbeddingCache) (text : String) : Option Embedding :=
  c.vectors.get? (contentDigest text)

def put (c : EmbeddingCache) (text : String) (v : Embedding) : EmbeddingCache :=
  ⟨c.vectors.insert (contentDigest text) v⟩

/-- Known vectors, with the fresh ones in the gaps. -/
def fill : List (Option Embedding) → List Embedding → List Embedding
  | [], _ => []
  | some v :: rest, fresh => v :: fill rest fresh
  | none :: rest, v :: fresh => v :: fill rest fresh
  | none :: rest, [] => fill rest []

/-- The persisted form: entries by digest. -/
def text (c : EmbeddingCache) (id : String) : String :=
  (Json.array (c.vectors.toList.map (fun e => Json.object [
    ("content_hash", .string e.1),
    ("embedder_id", .string id),
    ("vector", Embedding.toJson e.2)]))).compact

/-- A persisted entry: digest, embedder and vector. -/
structure Entry where
  digest : String
  embedder : String
  vector : Embedding

def Entry.fieldNames : List String := ["content_hash", "embedder_id", "vector"]

open Json in
def Entry.ofJson (j : Json) : Decoded Entry := do
  let fs ← record Entry.fieldNames j
  return {
    digest := ← fs.required "content_hash" asString
    embedder := ← fs.required "embedder_id" asString
    vector := ← fs.required "vector" Embedding.ofJson }

/-- Entries of one embedder and dimension taken in, and how many there were. -/
def merge (c : EmbeddingCache) (id : String) (dim : Nat) (entries : List Entry) :
    EmbeddingCache × Nat :=
  let own := entries.filter (fun e => e.embedder == id && e.vector.length == dim)
  (⟨own.foldl (fun m e => m.insert e.digest e.vector) c.vectors⟩, own.length)

/-- Take in the content of a file. -/
def load (c : EmbeddingCache) (id : String) (dim : Nat) (path : String)
    (content : Except FileFault String) : Except Fault (EmbeddingCache × Nat) := do
  match content with
  | .error .missing => return (c, 0)
  | .error .notDirectory => return (c, 0)
  | .error e => .error (.within ("reading " ++ path) (.file e))
  | .ok text =>
    match Json.decodeText (.list (.ofFields Entry.fieldNames)) (Json.asList Entry.ofJson) text with
    | .error e => .error (.within ("parsing " ++ path) (.unreadable e))
    | .ok entries => return c.merge id dim entries

end EmbeddingCache

namespace CachedEmbedder

variable {σ : Type}

/-- Embed a batch through the cache, which changes only if the embedder behind it answers. -/
def embedBatch (e : CachedEmbedder σ) (texts : List String) : Call σ (List Embedding) := do
  let cache := e.slot.get (← get)
  let known := texts.map cache.find?
  let missing := texts.filter (fun t => (cache.find? t).isNone)
  if missing.isEmpty then return EmbeddingCache.fill known []
  let fresh ← e.inner.embedBatch missing
  if fresh.length ≠ missing.length then throw (.vectorCount fresh.length missing.length)
  modify fun s =>
    e.slot.set ((missing.zip fresh).foldl (fun c t => c.put t.1 t.2) (e.slot.get s)) s
  return EmbeddingCache.fill known fresh

def embedder (e : CachedEmbedder σ) : Embedder σ := ⟨e.inner.dim, e.embedBatch⟩

/-- The usual embedder: hashed vectors behind a cache. -/
def standard (dim : Nat) (slot : Slot σ EmbeddingCache) : Except Fault (CachedEmbedder σ) := do
  return ⟨← Hashed.embedder dim, "hash-" ++ toString dim, slot⟩

end CachedEmbedder
end CorpusIndex
