import CorpusIndex.Collaborator
import CorpusIndex.Index.KeywordTable
import CorpusIndex.Index.RelationGraph

/-!
# Answers by keyword

A keyword table ranks nodes by the number of query keywords they are filed under. A relation graph
follows each query keyword to the objects it relates to.
-/
namespace CorpusIndex

variable {σ : Type}

/-- How many keywords of a query and how many nodes are used. -/
structure KeywordLimits where
  keywords : Nat := 10
  nodes : Nat := 10
  deriving DecidableEq, Inhabited, Repr

namespace KeywordTable

/-- Keywords of a text that the table knows. -/
def matchedKeywords (t : KeywordTable) (x : KeywordExtractor σ) (most : Nat) (text : String) :
    Action σ (List String) := do
  return (← (x.keywords text most).external).filter t.hasKeyword

/-- How many of the keywords each node is filed under. -/
def counts (t : KeywordTable) (keywords : List String) : SortedMap String Nat :=
  (keywords.flatMap t.table.under).foldl (fun m id => m.update id 0 (· + 1)) ∅

/-- Nodes by descending count, then by id. -/
def ranked (t : KeywordTable) (keywords : List String) (most : Nat) : List (String × Nat) :=
  ((t.counts keywords).toList.mergeSort (fun a b => b.2 ≤ a.2)).take most

def retrieve (t : KeywordTable) (store : NodeStore) (x : KeywordExtractor σ) (limits : KeywordLimits) :
    Retriever σ := fun q => do
  if t.isEmpty then return {}
  let keywords ← t.matchedKeywords x limits.keywords q.text
  let hits ← (t.ranked keywords limits.nodes).mapM fun r => do
    return { node := ← store.resolve r.1, score := some r.2.toUInt64.toFloat32 : Hit }
  return { hits }

end KeywordTable

namespace RelationGraph

/-- The answer of a relation graph, and the texts of the facts about every keyword. -/
def retrieveWithFacts (g : RelationGraph) (store : NodeStore) (x : KeywordExtractor σ)
    (limits : KeywordLimits) (q : Query) : Action σ (Retrieval × List String) := do
  if g.isEmpty then return ({}, [])
  let keywords ← (x.keywords q.text limits.keywords).external
  let ids := (← keywords.mapM (fun k => g.lookup k 1)).flatten.eraseDups.take limits.nodes
  let nodes ← store.resolveAll ids
  return ({ hits := nodes.map (fun n => { node := n }) }, keywords.flatMap g.factTexts)

def retrieve (g : RelationGraph) (store : NodeStore) (x : KeywordExtractor σ) (limits : KeywordLimits) :
    Retriever σ := fun q => do return (← g.retrieveWithFacts store x limits q).1

end RelationGraph
end CorpusIndex
