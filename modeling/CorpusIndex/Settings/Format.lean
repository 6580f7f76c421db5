import CorpusIndex.Json.Decode
import CorpusIndex.Json.Printer
import CorpusIndex.Settings

/-!
# Persisted form of settings

Every section is an object under its name. A section, or a setting of one, that is left out keeps its
default; reading does not check whether values are accepted.
-/
namespace CorpusIndex

open Json

namespace ChunkingSettings

def toJson (s : ChunkingSettings) : Json := .object [
  ("max_tokens", .ofNat s.maxTokens),
  ("overlap_percent", .ofFloat32 s.overlap)]

def ofJson (j : Json) : Decoded ChunkingSettings := do
  let d : ChunkingSettings := {}
  let fs ← record ["max_tokens", "overlap_percent"] j
  return {
    maxTokens := ← fs.optional "max_tokens" d.maxTokens asNat
    overlap := ← fs.optional "overlap_percent" d.overlap asFloat32 }

end ChunkingSettings

namespace IndexSettings

def toJson (s : IndexSettings) : Json := .object [
  ("num_children", .ofNat s.numChildren),
  ("max_keywords_per_chunk", .ofNat s.maxKeywordsPerChunk),
  ("embed_dim", .ofNat s.embedDim),
  ("embed_batch_size", .ofNat s.embedBatchSize),
  ("show_progress", .bool s.showProgress)]

def ofJson (j : Json) : Decoded IndexSettings := do
  let d : IndexSettings := {}
  let fs ← record ["num_children", "max_keywords_per_chunk", "embed_dim", "embed_batch_size",
    "show_progress"] j
  return {
    numChildren := ← fs.optional "num_children" d.numChildren asNat
    maxKeywordsPerChunk := ← fs.optional "max_keywords_per_chunk" d.maxKeywordsPerChunk asNat
    embedDim := ← fs.optional "embed_dim" d.embedDim asNat
    embedBatchSize := ← fs.optional "embed_batch_size" d.embedBatchSize asNat
    showProgress := ← fs.optional "show_progress" d.showProgress asBool }

end IndexSettings

namespace RetrievalSettings

def toJson (s : RetrievalSettings) : Json := .object [
  ("similarity_top_k", .ofNat s.topK),
  ("child_branch_factor", .ofNat s.branchFactor),
  ("max_keywords_per_query", .ofNat s.maxKeywordsPerQuery),
  ("num_chunks_per_query", .ofNat s.chunksPerQuery)]

def ofJson (j : Json) : Decoded RetrievalSettings := do
  let d : RetrievalSettings := {}
  let fs ← record ["similarity_top_k", "child_branch_factor", "max_keywords_per_query",
    "num_chunks_per_query"] j
  return {
    topK := ← fs.optional "similarity_top_k" d.topK asNat
    branchFactor := ← fs.optional "child_branch_factor" d.branchFactor asNat
    maxKeywordsPerQuery := ← fs.optional "max_keywords_per_query" d.maxKeywordsPerQuery asNat
    chunksPerQuery := ← fs.optional "num_chunks_per_query" d.chunksPerQuery asNat }

end RetrievalSettings

namespace Settings

def toJson (s : Settings) : Json := .object [
  ("chunking", s.chunking.toJson),
  ("index", s.index.toJson),
  ("retrieval", s.retrieval.toJson),
  ("storage", .object [("persist_dir", .string s.persistDir)])]

/-- The section about storage. -/
def persistDirOfJson (default : String) (j : Json) : Decoded String := do
  let fs ← record ["persist_dir"] j
  fs.optional "persist_dir" default asString

def ofJson (j : Json) : Decoded Settings := do
  let d : Settings := {}
  let fs ← record ["chunking", "index", "retrieval", "storage"] j
  return {
    chunking := ← fs.optional "chunking" d.chunking ChunkingSettings.ofJson
    index := ← fs.optional "index" d.index IndexSettings.ofJson
    retrieval := ← fs.optional "retrieval" d.retrieval RetrievalSettings.ofJson
    persistDir := ← fs.optional "storage" d.persistDir (persistDirOfJson d.persistDir) }

end Settings
end CorpusIndex
