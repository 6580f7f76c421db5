import CorpusIndex.Build.Relations
import CorpusIndex.Build.Tree
import CorpusIndex.Chunk
import CorpusIndex.CommandLine.Arguments
import CorpusIndex.Composition
import CorpusIndex.Config
import CorpusIndex.Corpus.Engine
import CorpusIndex.Directory
import CorpusIndex.Embedding.Cache
import CorpusIndex.Extract.Keywords
import CorpusIndex.VectorStore

/-!
# Commands

Ingesting a directory, querying the indices built from it, and listing them. A command reads and
writes a tree of files and prints.
-/
namespace CorpusIndex

/-- What a command works on. -/
structure Shell where
  files : FileTree
  /-- the directory that relative paths start from -/
  cwd : List String
  env : Environment
  printed : List String := []
  cache : EmbeddingCache := {}
  vectors : VectorStore := { dimension := 0 }

abbrev Command (α : Type) := ExceptT CommandFailure (StateM Shell) α

namespace Shell

def cacheSlot : Slot Shell EmbeddingCache := ⟨Shell.cache, fun c s => { s with cache := c }⟩
def vectorSlot : Slot Shell VectorStore := ⟨Shell.vectors, fun v s => { s with vectors := v }⟩

def read (s : Shell) (path : String) : Except FileFault String := s.files.textAt s.cwd path

/-- The places on the way of a path. -/
def visited (s : Shell) (path : String) : List (List String) :=
  Path.visited (Path.start s.cwd path) (Path.names path)

end Shell

namespace Command

/-- An operation of the library as part of a command. -/
def ofAction (a : Action Shell α) : Command α :=
  ExceptT.mk do return (← a.run).mapError .failure

def ofExcept (e : Except Failure α) : Command α := ExceptT.mk (pure (e.mapError .failure))

def ofFault (e : Except Fault α) : Command α := ExceptT.mk (pure (e.mapError .fault))

def print (line : String) : Command Unit := modify fun s => { s with printed := s.printed ++ [line] }

/-- Change the files; a fault is reported as `wrap` says. -/
def onFiles (wrap : FileFault → CommandFailure)
    (f : FileTree → (cwd : List String) → Except FileFault FileTree) : Command Unit := do
  let s ← get
  match f s.files s.cwd with
  | .ok files => set { s with files }
  | .error e => throw (wrap e)

def makeDirectories (wrap : FileFault → CommandFailure) (path : String) : Command Unit :=
  onFiles wrap (fun files cwd => files.makeDirectoriesAt cwd path)

def writeText (wrap : FileFault → CommandFailure) (path text : String) : Command Unit :=
  onFiles wrap (fun files cwd => files.writeAt cwd path text)

/-- A fault while a file is written. -/
def writing (path : String) (e : FileFault) : CommandFailure :=
  .fault (.within ("writing " ++ path) (.file e))

def cacheFile : String := "embedding_cache.json"
def rootIndex : String := "graph"

/-- The usual embedder, with the cache that was saved in a directory. -/
def openEmbedder (dim : Nat) (cachePath : String) : Command (CachedEmbedder Shell) := do
  let e ← ofFault (CachedEmbedder.standard dim Shell.cacheSlot)
  let s ← get
  let (cache, _) ← ofFault (s.cache.load e.id dim cachePath (s.read cachePath))
  modify fun s => { s with cache }
  return e

/-- A persisted text; one that is not there is reported by its path. -/
def persisted (s : Shell) (path : String) : Except Failure String :=
  match s.read path with
  | .ok text => .ok text
  | .error .missing => .error (.absent (.persistedFile path))
  | .error .notDirectory => .error (.absent (.persistedFile path))
  | .error e => .error (.file e)

/-- The corpus persisted in a directory. -/
def loadCorpus (s : Shell) (directory : String) : Except Failure Corpus :=
  Corpus.ofTexts (persisted s (Path.join directory Corpus.storeFile))
    (persisted s (Path.join directory Corpus.indicesFile))

def loadVectors (s : Shell) (directory : String) : Except Fault VectorStore :=
  let path := Path.join directory VectorStore.fileName
  VectorStore.load path (s.read path)

/-- A text with blanks up to a width. -/
def padded (width : Nat) (s : String) : String :=
  s ++ String.ofList (List.replicate (width - s.length) ' ')

/-- The directory of documents: the argument, the configured one, or `./data`. -/
def dataDirectory (config : Config) (args : List String) : String :=
  match args with
  | d :: _ => d
  | [] => ((config.get "data_dir" ConfigValue.asText?).toOption).getD "./data"

/-- The indices over the chunks of documents, and the store they refer to. The vectors enter the
shell's vector store. -/
def buildCorpus (settings : Settings) (e : CachedEmbedder Shell) (documents : List Document)
    (chunks : List Node) : Command Corpus := do
  modify fun s => { s with vectors := { dimension := settings.index.embedDim } }
  let inserted ← VectorMap.insert e.embedder (some (VectorStore.engine Shell.vectorSlot))
    settings.index.embedBatchSize { id := "vector" } chunks
  let _ ← ofExcept inserted.result
  let nodes := inserted.nodes
  let store ← ofExcept (({} : NodeStore).add nodes false)
  let list := (nodes.map (·.id)).foldl NodeList.add { id := "list" }
  let keyword ← ofAction
    (KeywordTable.build Keywords.frequentExtractor settings.index.maxKeywordsPerChunk "keyword" nodes)
  let (tree, store) ← ofAction
    (Forest.build Summarizer.leads settings.index.numChildren "tree" nodes store)
  let leads := Text.leads (documents.map (·.text))
  let children := [
    (Index.list list).setSummary ("Every chunk in reading order. " ++ leads),
    (Index.keywordTable keyword).setSummary ("Chunks looked up by keyword. " ++ leads),
    (Index.vectors inserted.map).setSummary ("Chunks ranked by semantic similarity. " ++ leads),
    .tree tree]
  let standIns ← ofExcept (standIns children)
  let root := (standIns.map (·.id)).foldl NodeList.add { id := rootIndex }
  let store ← ofExcept (store.add standIns false)
  let indices ← ofExcept ((children ++ [Index.list root]).foldlM IndexStore.add {})
  return ⟨store, indices⟩

/-- Write the files of the corpus into a directory, which is made if it is not there. -/
def persist (corpus : Corpus) (directory : String) : Command Unit := do
  let failing := fun fault => CommandFailure.failure (.file fault)
  makeDirectories failing directory
  corpus.files.forM fun f => writeText failing (Path.join directory f.1) f.2

/-- Write the corpus, its vectors and the embedding cache. -/
def save (corpus : Corpus) (e : CachedEmbedder Shell) (directory : String) : Command Unit := do
  persist corpus directory
  let vectorPath := Path.join directory VectorStore.fileName
  writeText (writing vectorPath) vectorPath (← get).vectors.toJson.compact
  let cachePath := Path.join directory cacheFile
  writeText (writing cachePath) cachePath ((← get).cache.text e.id)

def ingest (config : Config) (settings : Settings) (args : List String) : Command Unit := do
  let source := dataDirectory config args
  let directory := settings.directory (← get).env
  print "ragdex ingest\n============="
  print ("Data directory: " ++ source)
  print ("Storage directory: " ++ directory)
  let s ← get
  let documents ← ofExcept (Directory.documents s.files s.cwd source none)
  if documents.isEmpty then throw (.noDocuments source)
  let chunker ← ofExcept (Chunker.ofSettings settings.chunking)
  let chunks := chunker.nodesOfAll documents
  print ("📄 " ++ toString documents.length ++ " documents → " ++ toString chunks.length ++ " chunks")
  makeDirectories (fun e => .fault (.file e)) directory
  let e ← openEmbedder settings.index.embedDim (Path.join directory cacheFile)
  let corpus ← buildCorpus settings e documents chunks
  save corpus e directory
  print "\n✅ Ingest complete"
  corpus.indices.toList.forM fun i =>
    print ("  " ++ padded 8 i.id ++ " " ++ i.kind ++ " (" ++ toString i.nodeIds.length ++ " ids)")
  print "\n💡 To query, use: ragdex query <list|keyword|vector|tree|graph> '<query>'"

/-- The indices of a corpus under its root index. -/
def compose (corpus : Corpus) : Except Failure Composition := do
  let root ← corpus.indices.index rootIndex
  (corpus.indices.ids.filter (· ≠ rootIndex)).foldlM
    (fun g id => do g.add (← corpus.indices.index id) corpus.store)
    (Composition.ofRoot root corpus.store)

/-- Answers from the index that is asked for. -/
def retrieverFor (target : String) (corpus : Corpus) (c : SearchContext Shell) :
    Except CommandFailure (Retriever Shell) :=
  if target = "graph" then
    ((compose corpus).map (fun g => g.retriever c)).mapError .failure
  else if ["list", "keyword", "vector", "tree"].contains target then
    ((corpus.indices.index target).bind c.retriever).mapError .failure
  else .error (.unknownIndex target)

def printHit (n : Nat) (h : Hit) : Command Unit := do
  let score := match h.score with
    | none => "-"
    | some x => String.ofList (Decimal.fixed 4 (Decimal.partsOfFloat32 x))
  print ("\n  " ++ toString (n + 1) ++ ". score=" ++ score ++ "  id=" ++ h.node.id ++ "  doc=" ++
    h.node.document.getD "-")
  print ("     📝 " ++ Text.excerpt 200 h.node.text)

def query (settings : Settings) (args : List String) : Command Unit := do
  let a ← ExceptT.mk (pure (QueryArguments.parse args))
  let s ← get
  let directory := settings.directory s.env
  let corpus ← ExceptT.mk (pure ((loadCorpus s directory).mapError
    (.loading ("loading indices from " ++ directory ++ " (run \x60ragdex ingest\x60 first)"))))
  let vectors ← ofFault (loadVectors s directory)
  modify fun s => { s with vectors }
  let e ← openEmbedder settings.index.embedDim (Path.join directory cacheFile)
  let c : SearchContext Shell := {
    store := corpus.store
    embedder := e.embedder
    extractor := Keywords.frequentExtractor
    engine := some (VectorStore.engine Shell.vectorSlot)
    settings := { settings.retrieval with topK := a.topK.getD settings.retrieval.topK } }
  let retriever ← ExceptT.mk (pure (retrieverFor a.target corpus c))
  print "🔍 ragdex query\n=============="
  print ("Index: " ++ a.target ++ "  Query: " ++ a.query)
  let found ← ofAction (answer retriever (some corpus.store) a.stages { text := a.query })
  print ("\n🔍 Found " ++ toString found.hits.length ++ " results")
  found.hits.zipIdx.forM fun h => printHit h.2 h.1

def inspect (settings : Settings) : Command Unit := do
  let s ← get
  let directory := settings.directory s.env
  let corpus ← ExceptT.mk (pure ((loadCorpus s directory).mapError
    (.loading ("loading indices from " ++ directory))))
  print ("Storage: " ++ directory)
  print ("Nodes: " ++ toString corpus.store.size ++ "  Documents: " ++
    toString corpus.store.documents.size)
  print "\n📊 Index structs:"
  corpus.indices.toList.forM fun i =>
    print ("  " ++ padded 8 i.id ++ " " ++ padded 20 i.kind ++ " ids=" ++
      padded 6 (toString i.nodeIds.length) ++ " summary=" ++
      (i.summary.map (Text.excerpt 80)).getD "-")
  match loadVectors s directory with
  | .ok v => print ("\nVector store: " ++ toString v.size ++ " vectors (dim " ++
      toString v.dimension ++ ")")
  | .error e => print ("\nVector store: unavailable (" ++ e.line ++ ")")

end Command

/-- What a program run leaves. -/
structure Outcome where
  code : Nat
  out : String
  err : String
  files : FileTree

/-- Printed lines as one text. -/
def Shell.output (s : Shell) : String := String.join (s.printed.map (· ++ "\n"))

/-- Run a command and report how it ended. -/
def Command.finish (c : Command Unit) (s : Shell) : Outcome :=
  match c.run s with
  | (.ok (), s) => ⟨0, s.output, "", s.files⟩
  | (.error e, s) => ⟨1, s.output, "Error: " ++ e.report ++ "\n", s.files⟩

/-- The configuration a program runs with. -/
def Shell.config (s : Shell) : Except Failure Config :=
  Config.load s.files (Config.upward s.cwd) (s.env.getD "RUST_ENV" "dev") s.env

/-- Places that decide which files are layers of the configuration. -/
def Shell.configPlaces (s : Shell) : List (List String) :=
  (Config.upward s.cwd).flatMap fun d =>
    (Config.fileNames (s.env.getD "RUST_ENV" "dev")).flatMap fun name =>
      Path.visited d (Path.names name)

/-- Paths below which the program reads and writes, once its configuration is known. -/
def Shell.workPaths (s : Shell) (args : List String) : List String :=
  match s.config with
  | .error _ => []
  | .ok config =>
    let storage := (config.settings.toOption.map (fun t => t.directory s.env)).toList
    let source := match args with
      | "ingest" :: rest => [Command.dataDirectory config rest]
      | _ => []
    storage ++ source

/-- Run the program with its arguments. -/
def run (args : List String) (s : Shell) : Outcome :=
  let settled : Except Failure (Config × Settings) := do
    let config ← s.config
    return (config, ← config.settings)
  match settled with
  | .error e =>
    ⟨1, "", "Error loading config: " ++ e.message ++ "\nError: " ++
      (CommandFailure.failure e).report ++ "\n", s.files⟩
  | .ok (config, settings) =>
    match args with
    | [] => ⟨1, "", usage ++ "\n", s.files⟩
    | "ingest" :: rest => (Command.ingest config settings rest).finish s
    | "query" :: rest => (Command.query settings rest).finish s
    | "inspect" :: _ => (Command.inspect settings).finish s
    | other :: _ => ⟨1, "", "Unknown command: " ++ other ++ "\n" ++ usage ++ "\n", s.files⟩

end CorpusIndex
