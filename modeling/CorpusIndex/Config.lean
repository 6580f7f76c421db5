import CorpusIndex.Config.Environment
import CorpusIndex.Config.Toml
import CorpusIndex.Files
import CorpusIndex.Json.Number
import CorpusIndex.Settings

/-!
# Layered configuration

Defaults, a common file, a file for the kind of environment, and variables, each laid over the ones
before.
-/
namespace CorpusIndex

/-- Values that are joined from all layers; nothing if a layer cannot be read. -/
structure Config where
  values : Option ConfigValue

namespace ConfigValue

def ofNat (n : Nat) : ConfigValue := .int n

def asNat? : ConfigValue → Option Nat
  | .int n => if 0 ≤ n then some n.toNat else none
  | _ => none

/-- A whole number within 64 signed bits. -/
def asInt? : ConfigValue → Option Int
  | .int n => 
    if -(Decimal.signedBound : Int) ≤ n && n < Decimal.signedBound then some n else none
  | _ => none

def asFloat32? : ConfigValue → Option Float32
  | .int n => some (Json.NumberValue.whole n).toFloat32
  | .real x => some x.toFloat32
  | _ => none

def asBool? : ConfigValue → Option Bool
  | .bool b => some b
  | _ => none

def asText? : ConfigValue → Option String
  | .text s => some s
  | _ => none

/-- The fields of a section, which may also be listed in order. Items past the last field are passed
over. -/
def section? (known : List String) : ConfigValue → Option (List (String × ConfigValue))
  | .table fields => some fields
  | .list items => some (known.zip items)
  | _ => none

/-- A field of a section, or its default. -/
def field? (fields : List (String × ConfigValue)) (name : String) (default : α)
    (item : ConfigValue → Option α) : Option α :=
  match fields.lookup name with
  | some v => item v
  | none => some default

end ConfigValue

open ConfigValue

def ChunkingSettings.ofConfig? (v : ConfigValue) : Option ChunkingSettings := do
  let d : ChunkingSettings := {}
  let fs ← section? ["max_tokens", "overlap_percent"] v
  return {
    maxTokens := ← field? fs "max_tokens" d.maxTokens asNat?
    overlap := ← field? fs "overlap_percent" d.overlap asFloat32? }

def IndexSettings.ofConfig? (v : ConfigValue) : Option IndexSettings := do
  let d : IndexSettings := {}
  let fs ← section? ["num_children", "max_keywords_per_chunk", "embed_dim", "embed_batch_size",
    "show_progress"] v
  return {
    numChildren := ← field? fs "num_children" d.numChildren asNat?
    maxKeywordsPerChunk := ← field? fs "max_keywords_per_chunk" d.maxKeywordsPerChunk asNat?
    embedDim := ← field? fs "embed_dim" d.embedDim asNat?
    embedBatchSize := ← field? fs "embed_batch_size" d.embedBatchSize asNat?
    showProgress := ← field? fs "show_progress" d.showProgress asBool? }

def RetrievalSettings.ofConfig? (v : ConfigValue) : Option RetrievalSettings := do
  let d : RetrievalSettings := {}
  let fs ← section? ["similarity_top_k", "child_branch_factor", "max_keywords_per_query",
    "num_chunks_per_query"] v
  return {
    topK := ← field? fs "similarity_top_k" d.topK asNat?
    branchFactor := ← field? fs "child_branch_factor" d.branchFactor asNat?
    maxKeywordsPerQuery := ← field? fs "max_keywords_per_query" d.maxKeywordsPerQuery asNat?
    chunksPerQuery := ← field? fs "num_chunks_per_query" d.chunksPerQuery asNat? }

def persistDirOfConfig? (default : String) (v : ConfigValue) : Option String := do
  field? (← section? ["persist_dir"] v) "persist_dir" default asText?

def Settings.ofConfig? (v : ConfigValue) : Option Settings := do
  let d : Settings := {}
  let fs ← section? ["chunking", "index", "retrieval", "storage"] v
  return {
    chunking := ← field? fs "chunking" d.chunking ChunkingSettings.ofConfig?
    index := ← field? fs "index" d.index IndexSettings.ofConfig?
    retrieval := ← field? fs "retrieval" d.retrieval RetrievalSettings.ofConfig?
    persistDir := ← field? fs "storage" d.persistDir (persistDirOfConfig? d.persistDir) }

/-- Settings as the values they are read from. -/
def Settings.toConfig (s : Settings) : ConfigValue := .table [
  ("chunking", .table [
    ("max_tokens", .ofNat s.chunking.maxTokens),
    ("overlap_percent", .real s.chunking.overlap.toFloat)]),
  ("index", .table [
    ("num_children", .ofNat s.index.numChildren),
    ("max_keywords_per_chunk", .ofNat s.index.maxKeywordsPerChunk),
    ("embed_dim", .ofNat s.index.embedDim),
    ("embed_batch_size", .ofNat s.index.embedBatchSize),
    ("show_progress", .bool s.index.showProgress)]),
  ("retrieval", .table [
    ("similarity_top_k", .ofNat s.retrieval.topK),
    ("child_branch_factor", .ofNat s.retrieval.branchFactor),
    ("max_keywords_per_query", .ofNat s.retrieval.maxKeywordsPerQuery),
    ("num_chunks_per_query", .ofNat s.retrieval.chunksPerQuery)]),
  ("storage", .table [("persist_dir", .text s.persistDir)])]

namespace Config

/-- Short names of environments. -/
def shortName : String → String
  | "development" => "dev"
  | "production" => "prod"
  | "testing" => "test"
  | name => name

/-- Names of the files that are layers. -/
def fileNames (envName : String) : List String :=
  ["ragdex.toml", "ragdex." ++ shortName envName ++ ".toml"]

/-- The first place among directories that holds a file. -/
def findFile? (files : FileTree) (directories : List (List String)) (name : String) :
    Option (List String) :=
  (directories.filterMap (fun d => (files.locate d name).toOption)).find? files.isFile

/-- The layer of a file; a file that is not there is an empty layer. -/
def fileLayer? (files : FileTree) (directories : List (List String)) (name : String) :
    Option ConfigValue :=
  match findFile? files directories name with
  | none => some (.table [])
  | some place => do Toml.parse? (← (files.readText place).toOption)

def mark : String := "RAGDEX_"

/-- All layers, with files looked for in directories one after another. -/
def layered (files : FileTree) (directories : List (List String)) (envName : String)
    (env : Environment) : Config where
  values := do
    let layers ← (fileNames envName).mapM (fileLayer? files directories)
    return (layers ++ [ofEnvironment mark env]).foldl overlay (Settings.toConfig {})

/-- A directory and all directories above it. -/
def upward (directory : List String) : List (List String) :=
  (List.range (directory.length + 1)).reverse.map directory.take

/-- The settings, checked. -/
def settings (c : Config) : Except Failure Settings :=
  match c.values.bind Settings.ofConfig? with
  | none => .error (.invalid .settingsUnreadable)
  | some s => do
    s.validate
    return s

/-- A value under a key with points in it. -/
def get (c : Config) (key : String) (item : ConfigValue → Option α) : Except Failure α :=
  let names := ((Text.pieces (· == '.') key.toList).map String.ofList).takeWhile (· ≠ "")
  match (c.values.bind (·.find? names)).bind item with
  | some a => .ok a
  | none => .error (.invalid (.settingUnreadable key))

/-- A configuration whose settings are accepted. -/
def load (files : FileTree) (directories : List (List String)) (envName : String)
    (env : Environment) : Except Failure Config := do
  let c := layered files directories envName env
  let _ ← c.settings
  return c

end Config

/-- The directory of persisted files. -/
def Settings.directory (s : Settings) (env : Environment) : String := Path.expand env s.persistDir

end CorpusIndex
