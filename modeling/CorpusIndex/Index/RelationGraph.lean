import CorpusIndex.Index.Postings

/-!
# Relation graphs

Facts of subject, relation and object. Nodes are filed under the subjects and objects of their facts,
and every subject keeps its relations in the order they were first stated.
-/
namespace CorpusIndex

structure Triplet where
  subject : String
  relation : String
  object : String
  deriving DecidableEq, Inhabited, Repr

def Triplet.text (t : Triplet) : String :=
  "(" ++ t.subject ++ ", " ++ t.relation ++ ", " ++ t.object ++ ")"

structure RelationGraph where
  id : String
  summary : Option String := none
  table : Postings := ∅
  /-- relation and object of every fact about a subject -/
  relations : SortedMap String (List (String × String)) := ∅
  /-- embeddings of the texts of facts -/
  embeddings : SortedMap String Embedding := ∅
  deriving DecidableEq, Inhabited, Repr

namespace RelationGraph

def size (g : RelationGraph) : Nat := g.table.size
def isEmpty (g : RelationGraph) : Bool := g.table.isEmpty
def nodeIds (g : RelationGraph) : List String := g.table.nodeIds.elems

def add (g : RelationGraph) (keywords : List String) (id : String) : RelationGraph :=
  { g with table := g.table.file keywords id }

/-- State a fact, once, and file a node under its subject and object. -/
def upsert (g : RelationGraph) (t : Triplet) (id : String) : RelationGraph :=
  let pairs := g.relations.getD t.subject []
  let pair := (t.relation, t.object)
  let pairs := if pairs.contains pair then pairs else pairs ++ [pair]
  { g with relations := g.relations.insert t.subject pairs }.add [t.subject, t.object] id

def embed (g : RelationGraph) (text : String) (e : Embedding) : RelationGraph :=
  { g with embeddings := g.embeddings.insert text e }

/-- Facts about a subject. -/
def facts (g : RelationGraph) (subject : String) : List Triplet :=
  (g.relations.getD subject []).map (fun p => ⟨subject, p.1, p.2⟩)

def factTexts (g : RelationGraph) (subject : String) : List String :=
  (g.facts subject).map Triplet.text

/-- Ids filed under a keyword and then under the objects it relates to, without repetition. -/
def lookup (g : RelationGraph) (keyword : String) (depth : Nat) : Except Failure (List String) := do
  Postings.checkDepth depth
  if g.table.contains keyword then
    let objects := (g.relations.getD keyword []).map (·.2)
    return ((keyword :: objects).flatMap g.table.under).eraseDups
  else return []

/-- Delete a document's nodes, and the relations whose subject or object names no node any more. -/
def deleteDocument (g : RelationGraph) (doc : String) (store : NodeStore) :
    Except Failure (RelationGraph × List String) := do
  let doomed ← g.table.ownedBy doc store
  if doomed.isEmpty then .error (.absent (.document doc (.relations g.id)))
  else
    let table := g.table.prune doomed
    let relations := ((g.relations.filter (fun subject _ => table.contains subject)).mapValues
      (fun _ pairs => pairs.filter (fun p => table.contains p.2))).filter (fun _ pairs => !pairs.isEmpty)
    return ({ g with table, relations }, doomed.elems)

end RelationGraph
end CorpusIndex
