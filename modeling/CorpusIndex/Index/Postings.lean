import CorpusIndex.NodeStore

/-!
# Postings

The ids of the nodes filed under each keyword, as keyword tables and relation graphs keep them.
-/
namespace CorpusIndex

abbrev Postings := SortedMap String (SortedSet String)

namespace Postings

/-- File a node under every keyword. -/
def file (t : Postings) (keywords : List String) (id : String) : Postings :=
  keywords.foldl (fun t k => t.update k ∅ (·.add id)) t

/-- Ids filed under a keyword, in order. -/
def under (t : Postings) (keyword : String) : List String := (t.getD keyword ∅).elems

/-- Every id that is filed anywhere. -/
def nodeIds (t : Postings) : SortedSet String := .ofElems (t.values.flatMap (·.elems))

/-- Only direct lookups, of depth one, are answered. -/
def checkDepth : Nat → Except Failure Unit
  | 0 => .error (.invalid .zeroLookupDepth)
  | 1 => .ok ()
  | depth => .error (.unsupportedDepth depth)

/-- Filed ids that belong to a document. -/
def ownedBy (t : Postings) (doc : String) (store : NodeStore) : Except Failure (SortedSet String) := do
  let nodes ← t.nodeIds.elems.mapM (fun id => do return (id, ← store.resolve id))
  return .ofElems ((nodes.filter (fun n => n.2.document == some doc)).map (·.1))

/-- The postings without some ids, and without the keywords that leaves empty. -/
def prune (t : Postings) (doomed : SortedSet String) : Postings :=
  (t.mapValues (fun _ ids => ids.filter (fun id _ => !doomed.contains id))).filter
    (fun _ ids => !ids.isEmpty)

end Postings
end CorpusIndex
