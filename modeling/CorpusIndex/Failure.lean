/-!
# What can go wrong

A failure names its cause; `Failure.message` is the only place that words it. A fault is what a
collaborator outside the library reports, together with the contexts it passed through on the way.
-/
namespace CorpusIndex

/-- Why a file could not be read. -/
inductive FileFault where
  | missing
  | isDirectory
  | notDirectory
  | notText
  | exists
  deriving DecidableEq, Repr

def FileFault.message : FileFault → String
  | .missing => "No such file or directory (os error 2)"
  | .isDirectory => "Is a directory (os error 21)"
  | .notDirectory => "Not a directory (os error 20)"
  | .notText => "stream did not contain valid UTF-8"
  | .exists => "File exists (os error 17)"

/-- Why a persisted text could not be decoded. -/
inductive Unreadable where
  | malformed
  | treePosition (key : String)
  deriving DecidableEq, Repr

def Unreadable.message : Unreadable → String
  | .malformed => "malformed value"
  | .treePosition key => s!"tree position '{key}' is not an integer"

/-- What a collaborator reports. -/
inductive Fault where
  /-- the collaborator's own words -/
  | reported (text : String)
  | zeroDimension
  | tooManyEntries (dim : Nat)
  | noQueryVector
  | vectorCount (got asked : Nat)
  | vectorDimension (id : String) (got expected : Nat)
  | queryDimension (got expected : Nat)
  | file (cause : FileFault)
  | unreadable (cause : Unreadable)
  | within (context : String) (cause : Fault)
  deriving DecidableEq, Repr

/-- The outermost context, or the fault itself where there is none. -/
def Fault.message : Fault → String
  | .reported text => text
  | .zeroDimension => "embedding dimension must be > 0"
  | .tooManyEntries dim => s!"a vector cannot have {dim} entries"
  | .noQueryVector => "embedder returned no vector for the query"
  | .vectorCount got asked => s!"embedder returned {got} vectors for {asked} texts"
  | .vectorDimension id got expected => s!"vector '{id}' has dimension {got}, store expects {expected}"
  | .queryDimension got expected => s!"query has dimension {got}, store expects {expected}"
  | .file cause => cause.message
  | .unreadable cause => cause.message
  | .within context _ => context

/-- Messages from the outermost context down to the first cause. -/
def Fault.chain : Fault → List String
  | .within context cause => context :: cause.chain
  | fault => [fault.message]

/-- The whole chain on one line. -/
def Fault.line (f : Fault) : String := String.intercalate ": " f.chain

/-- A setting or an argument that cannot be used. -/
inductive Misuse where
  | zeroLookupDepth
  | tooFewChildren (given : Nat)
  | zeroBranchFactor
  | zeroDepthLimit
  | modelNeeded (tree : String)
  | engineNeeded (index backend : String)
  | noSummary (index : String)
  | noTracker
  | noStore
  | unknownTreeMode (name : String)
  | unknownListMode (name : String)
  | unknownNeighbourMode (name : String)
  | unknownBackend (name : String)
  | zeroTokenBudget
  | overlapOutOfRange
  | overlapSettingOutOfRange (given : String)
  | childrenSetting
  | dimensionSetting
  | branchSetting
  | settingsUnreadable
  | settingUnreadable (key : String)
  deriving DecidableEq, Repr

def Misuse.message : Misuse → String
  | .zeroLookupDepth => "keyword lookup depth must be at least 1"
  | .tooFewChildren given => s!"num_children must be at least 2, got {given}"
  | .zeroBranchFactor => "child_branch_factor must be at least 1"
  | .zeroDepthLimit => "tree depth limit must be at least 1"
  | .modelNeeded tree => s!"tree '{tree}' in select_leaf mode needs a language model"
  | .engineNeeded index backend =>
    s!"vector index '{index}' uses the {backend} backend but no vector engine is bound"
  | .noSummary index => s!"index '{index}' has no summary to compose with"
  | .noTracker => "similarity cutoff requested but no similarity tracker was supplied"
  | .noStore => "prev/next expansion needs the document store"
  | .unknownTreeMode name => s!"unknown tree retriever mode '{name}'"
  | .unknownListMode name => s!"unknown list retriever mode '{name}'"
  | .unknownNeighbourMode name => s!"unknown prev/next mode '{name}'"
  | .unknownBackend name => s!"unknown vector backend '{name}'"
  | .zeroTokenBudget => "chunking.max_tokens must be > 0"
  | .overlapOutOfRange => "chunking.overlap_percent must be in [0, 1)"
  | .overlapSettingOutOfRange given => s!"chunking.overlap_percent must be in [0, 1), got {given}"
  | .childrenSetting => "index.num_children must be >= 2"
  | .dimensionSetting => "index.embed_dim must be > 0"
  | .branchSetting => "retrieval.child_branch_factor must be >= 1"
  | .settingsUnreadable => "failed to extract settings"
  | .settingUnreadable key => s!"failed to get '{key}'"

/-- Where the nodes of a document were looked for. -/
inductive Place where
  | store
  | tree (index : String)
  | list (index : String)
  | keywordTable (index : String)
  | relations (index : String)
  | vectors (index : String)
  deriving DecidableEq, Repr

def Place.message : Place → String
  | .store => "document store"
  | .tree index => s!"tree '{index}'"
  | .list index => s!"list '{index}'"
  | .keywordTable index => s!"keyword table '{index}'"
  | .relations index => s!"knowledge graph '{index}'"
  | .vectors index => s!"vector index '{index}'"

/-- Something a caller named that is not there. -/
inductive Absent where
  | node (id : String)
  | document (doc : String) (place : Place)
  | treeNode (id tree : String)
  | treeParent (id tree : String)
  | treeChild (id : String) (parent : Option String)
  | vectorId (id index : String)
  | index (id : String)
  | graphIndex (id : String)
  | persistedFile (path : String)
  | directory (path : String)
  deriving DecidableEq, Repr

def Absent.message : Absent → String
  | .node id => s!"node '{id}' in document store"
  | .document doc place => s!"ref doc '{doc}' in " ++ place.message
  | .treeNode id tree => s!"node '{id}' in tree '{tree}'"
  | .treeParent id tree => s!"parent '{id}' in tree '{tree}'"
  | .treeChild id parent => s!"node '{id}' under '" ++ parent.getD "<root>" ++ "'"
  | .vectorId id owner => s!"vector id '{id}' in '{owner}'"
  | .index id => s!"index struct '{id}'"
  | .graphIndex id => s!"index '{id}' in composable graph"
  | .persistedFile path => s!"persisted file {path}"
  | .directory path => s!"directory {path}"

/-- Something that is there already. -/
inductive Repeated where
  | nodeInBatch (id : String)
  | storedNode (id : String)
  | treeNode (id tree : String)
  | treePosition (position : Nat) (holder : String)
  | treeChild (id parent : String)
  | treeChildTwice (id : String)
  | vectorId (id holder : String)
  | index (id : String)
  | graphIndex (id : String)
  deriving DecidableEq, Repr

def Repeated.message : Repeated → String
  | .nodeInBatch id => s!"node '{id}' appears twice in one batch"
  | .storedNode id => s!"node '{id}' already exists in the document store"
  | .treeNode id tree => s!"node '{id}' already in tree '{tree}'"
  | .treePosition position holder => s!"tree position {position} is occupied by '{holder}'"
  | .treeChild id parent => s!"node '{id}' already has parent '{parent}'"
  | .treeChildTwice id => s!"node '{id}' listed twice as a child"
  | .vectorId id holder => s!"vector id '{id}' already maps to node '{holder}'"
  | .index id => s!"index struct '{id}'"
  | .graphIndex id => s!"index '{id}' already in graph"

/-- A reference that leads nowhere, or a structure that contradicts itself. -/
inductive Corruption where
  | danglingNode (id : String)
  | linkCycle (id : String)
  | childPosition (position : Nat) (tree : String)
  | unknownParent (id : String)
  | unoccupiedChild (position : Nat) (parent : String)
  | positionOutOfSync (id : String)
  | parentCount (id : String) (count : Nat)
  | rootDisagrees (id : String)
  | reachedTwice (position : Nat)
  | cycle (tree : String)
  | unmappedVector (id index : String)
  | unmappedListing (doc id : String)
  deriving DecidableEq, Repr

def Corruption.message : Corruption → String
  | .danglingNode id => s!"index references node '{id}' missing from the document store"
  | .linkCycle id => s!"PREVIOUS links around '{id}' form a cycle"
  | .childPosition position tree => s!"child position {position} missing from tree '{tree}'"
  | .unknownParent id => s!"children recorded for unknown node '{id}'"
  | .unoccupiedChild position parent => s!"child position {position} of '{parent}' is not in all_nodes"
  | .positionOutOfSync id => s!"node_id_to_index out of sync for '{id}'"
  | .parentCount id count => s!"node '{id}' has {count} parents"
  | .rootDisagrees id => s!"root set disagrees with parent links for '{id}'"
  | .reachedTwice position => s!"position {position} reached twice"
  | .cycle tree => s!"tree '{tree}' contains a cycle"
  | .unmappedVector id index => s!"vector id '{id}' is not mapped in '{index}'"
  | .unmappedListing doc id => s!"doc '{doc}' lists unmapped vector id '{id}'"

/-- A collaborator that failed or answered out of shape. -/
inductive Outside where
  | fault (cause : Fault)
  | vectorDimension (id : String) (got expected : Nat)
  | idCount (got asked : Nat)
  deriving DecidableEq, Repr

def Outside.message : Outside → String
  | .fault cause => cause.line
  | .vectorDimension id got expected =>
    s!"embedding of '{id}' has dimension {got}, expected {expected}"
  | .idCount got asked => s!"vector engine returned {got} ids for {asked} vectors"

/-- Why an operation of the library failed. -/
inductive Failure where
  | invalid (cause : Misuse)
  | absent (what : Absent)
  | repeated (what : Repeated)
  | unsupportedDepth (depth : Nat)
  | corrupt (what : Corruption)
  | external (cause : Outside)
  | unreadable (cause : Unreadable)
  | file (cause : FileFault)
  /-- no tree position is left beyond the greatest one in use -/
  | positionsExhausted
  deriving DecidableEq, Repr

def Failure.message : Failure → String
  | .invalid cause => "Invalid configuration: " ++ cause.message
  | .absent what => "Not found: " ++ what.message
  | .repeated what => "Duplicate: " ++ what.message
  | .unsupportedDepth depth =>
    s!"Invalid configuration: keyword lookup depth {depth} is not supported (max 1)"
  | .corrupt what => "Index corrupted: " ++ what.message
  | .external cause => "External collaborator failed: " ++ cause.message
  | .unreadable cause => "Serialization error: " ++ cause.message
  | .file cause => "I/O error: " ++ cause.message
  | .positionsExhausted => "tree positions are exhausted"

/-- The message, followed by the cause where it is a file's or a text's. -/
def Failure.chain (f : Failure) : List String :=
  match f with
  | .unreadable cause => [f.message, cause.message]
  | .file cause => [f.message, cause.message]
  | _ => [f.message]

end CorpusIndex
