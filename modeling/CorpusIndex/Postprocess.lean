import CorpusIndex.Retrieve.Index

/-!
# Working on retrieved nodes

Filters by words and by recorded similarity, and the addition of neighbouring chunks. Stages run one
after another on the hits.
-/
namespace CorpusIndex

variable {σ : Type}

/-- Which neighbours of a chunk are added. -/
inductive NeighbourMode where
  | next
  | previous
  | both
  deriving DecidableEq, Inhabited, Repr

namespace NeighbourMode

def name : NeighbourMode → String
  | .next => "next"
  | .previous => "previous"
  | .both => "both"

def ofName : String → Except Failure NeighbourMode
  | "next" => .ok .next
  | "previous" => .ok .previous
  | "both" => .ok .both
  | other => .error (.invalid (.unknownNeighbourMode other))

def forward (m : NeighbourMode) : Bool := m != .previous
def backward (m : NeighbourMode) : Bool := m != .next

end NeighbourMode

/-- A stage. -/
inductive Postprocessor where
  | words (filter : WordFilter)
  | similarity (cutoff : Float32)
  | neighbours (count : Nat) (mode : NeighbourMode)
  deriving DecidableEq, Inhabited, Repr

/-- What stages may need. -/
structure PostprocessContext where
  store : Option NodeStore := none
  similarity : Option SimilarityRecord := none

namespace Postprocessor

/-- Up to `count` nodes reached from `start` by repeating a link, none of them twice. `seen` are the ids
met so far. -/
def walk (store : NodeStore) (step : Node → Option String) :
    (count : Nat) → (seen : List String) → Node → Except Failure (List Node)
  | 0, _, _ => .ok []
  | count + 1, seen, n =>
    match step n with
    | none => .ok []
    | some id => do
      let m ← store.node id
      if seen.contains m.id then return []
      return m :: (← walk store step count (m.id :: seen) m)

/-- The neighbours of a node that a mode asks for. -/
def neighboursOf (store : NodeStore) (count : Nat) (mode : NeighbourMode) (n : Node) :
    Except Failure (List Node) := do
  let after ← if mode.forward then walk store Node.next? count [n.id] n else pure []
  let before ← if mode.backward then walk store Node.previous? count [n.id] n else pure []
  return after ++ before

/-- The place of a hit in its chain; zero for a node that is not stored. -/
def placeOf (store : NodeStore) (h : Hit) : Except Failure Nat :=
  if store.contains h.node.id then store.chainPosition h.node.id else .ok 0

/-- Documents in order, nodes without one before all others. -/
def compareDocuments : Option String → Option String → Ordering
  | none, none => .eq
  | none, some _ => .lt
  | some _, none => .gt
  | some a, some b => compare a b

/-- Hits by document, then by place, then by id. -/
def inReadingOrder (a b : Nat × Hit) : Bool :=
  ((compareDocuments a.2.node.document b.2.node.document).then
    ((compare a.1 b.1).then (compare a.2.node.id b.2.node.id))).isLE

/-- Hits under their ids; a later hit replaces an earlier one. -/
def byId (hits : List Hit) : SortedMap String Hit := .ofList (hits.map (fun h => (h.node.id, h)))

/-- Nodes added to hits unless they are among them. -/
def addMissing (hits : SortedMap String Hit) (nodes : List Node) : SortedMap String Hit :=
  nodes.foldl (fun m n => if m.contains n.id then m else m.insert n.id { node := n }) hits

/-- Hits together with their neighbours, each node once. -/
def addNeighbours (store : NodeStore) (count : Nat) (mode : NeighbourMode) (hits : List Hit) :
    Except Failure (List Hit) := do
  let found ← hits.mapM (fun h => neighboursOf store count mode h.node)
  let all := addMissing (byId hits) found.flatten
  let placed ← all.values.mapM (fun h => do return (← placeOf store h, h))
  return (placed.mergeSort inReadingOrder).map (·.2)

/-- Run one stage. -/
def run (c : PostprocessContext) (hits : List Hit) : Postprocessor → Except Failure (List Hit)
  | .words filter => .ok (hits.filter (fun h => filter.accepts h.node.text))
  | .similarity cutoff =>
    match c.similarity with
    | none => .error (.invalid .noTracker)
    | some r => .ok (hits.filter (fun h => (r.find? h.node.id).any (fun s => cutoff ≤ s)))
  | .neighbours count mode =>
    match c.store with
    | none => .error (.invalid .noStore)
    | some store => addNeighbours store count mode hits

/-- Run stages one after another. -/
def runAll (c : PostprocessContext) (hits : List Hit) (stages : List Postprocessor) :
    Except Failure (List Hit) := stages.foldlM (run c) hits

end Postprocessor

/-- Answer a query and run the stages on the hits; recorded similarity stays as it is. -/
def answer (r : Retriever σ) (store : Option NodeStore) (stages : List Postprocessor) : Retriever σ :=
  fun q => do
    let found ← r q
    let hits ← Postprocessor.runAll ⟨store, some found.similarity⟩ found.hits stages
    return ⟨hits, found.similarity⟩

end CorpusIndex
