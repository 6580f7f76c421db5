import CorpusIndex.Index.Postings

/-!
# Keyword tables

An inverted index from keyword to node ids.
-/
namespace CorpusIndex

structure KeywordTable where
  id : String
  summary : Option String := none
  table : Postings := ∅
  deriving DecidableEq, Inhabited, Repr

namespace KeywordTable

def size (t : KeywordTable) : Nat := t.table.size
def isEmpty (t : KeywordTable) : Bool := t.table.isEmpty
def keywords (t : KeywordTable) : List String := t.table.keys
def hasKeyword (t : KeywordTable) (keyword : String) : Bool := t.table.contains keyword
def nodeIds (t : KeywordTable) : List String := t.table.nodeIds.elems

def add (t : KeywordTable) (keywords : List String) (id : String) : KeywordTable :=
  { t with table := t.table.file keywords id }

/-- Ids filed under a keyword; none where it is unknown. -/
def lookup (t : KeywordTable) (keyword : String) (depth : Nat) : Except Failure (List String) := do
  Postings.checkDepth depth
  return t.table.under keyword

def deleteDocument (t : KeywordTable) (doc : String) (store : NodeStore) :
    Except Failure (KeywordTable × List String) := do
  let doomed ← t.table.ownedBy doc store
  if doomed.isEmpty then .error (.absent (.document doc (.keywordTable t.id)))
  else return ({ t with table := t.table.prune doomed }, doomed.elems)

end KeywordTable
end CorpusIndex
