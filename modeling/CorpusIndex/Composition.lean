import CorpusIndex.Retrieve.Index

/-!
# Indices over indices

A node may stand for a whole index. A search that hits such a node goes on in the index it stands for,
and what is found there takes the node's place.
-/
namespace CorpusIndex

variable {σ : Type}

/-- Id of the node that stands for an index. -/
def standInId (index : String) : String := index ++ ":index"

/-- Nodes that stand for indices, with the indices' summaries as texts. -/
def standIns (indices : List Index) : Except Failure (List Node) :=
  indices.mapM fun i =>
    match i.summary with
    | some s => .ok (Node.standingFor (standInId i.id) s i.id)
    | none => .error (.invalid (.noSummary i.id))

/-- Indices that refer to one another, each with the store of its nodes, and the one to start from. -/
structure Composition where
  root : String
  members : SortedMap String (Index × NodeStore)

namespace Composition

def ofRoot (root : Index) (store : NodeStore) : Composition :=
  ⟨root.id, SortedMap.empty.insert root.id (root, store)⟩

def add (g : Composition) (i : Index) (store : NodeStore) : Except Failure Composition :=
  if g.members.contains i.id then .error (.repeated (.graphIndex i.id))
  else .ok { g with members := g.members.insert i.id (i, store) }

def member (g : Composition) (id : String) : Except Failure (Index × NodeStore) :=
  match g.members.get? id with
  | some m => .ok m
  | none => .error (.absent (.graphIndex id))

/-- Replace every node that stands for an index by what `follow` finds there. -/
def expand (follow : String → Action σ Retrieval) : Retrieval → List Hit → Action σ Retrieval
  | out, [] => pure out
  | out, hit :: rest =>
    match hit.node.index with
    | none => expand follow { out with hits := out.hits ++ [hit] } rest
    | some child => do
      let below ← follow child
      expand follow ⟨out.hits ++ below.hits, out.similarity.extend below.similarity⟩ rest

/-- Search the index `id`. `fuel` bounds how deep indices refer to one another. -/
def searchFrom (g : Composition) (q : Query) :
    (fuel : Nat) → SearchContext σ → (id : String) → Action σ Retrieval
  | 0, _, id => throw (.absent (.graphIndex id))
  | fuel + 1, c, id => do
    let (i, store) ← g.member id
    let found ← (← ({ c with store }).retriever i) q
    expand (g.searchFrom q fuel { c with engine := none }) { similarity := found.similarity } found.hits

/-- Searches end after this many levels. Indices that do not refer to one another in a circle are never
that deep; where they do, a search may still find an end. -/
def depthBound (g : Composition) : Nat := g.members.size + 4096

/-- Search from the root. An engine that is bound serves the root only. -/
def retriever (g : Composition) (c : SearchContext σ) : Retriever σ := fun q =>
  g.searchFrom q g.depthBound c g.root

end Composition
end CorpusIndex
