import CorpusIndex.Digest.XxHash64
import CorpusIndex.Metadata

/-!
# Nodes and documents

A node is a piece of indexed text with an id, links to other nodes by id, and the document it came
from. A document is a text before it is cut into nodes.
-/
namespace CorpusIndex

abbrev Embedding := List Float32

/-- Kinds of links between nodes. -/
inductive Link where
  | source
  | previous
  | next
  | parent
  | child
  deriving DecidableEq, Inhabited, Repr

namespace Link

def rank : Link → Nat
  | .source => 0
  | .previous => 1
  | .next => 2
  | .parent => 3
  | .child => 4

theorem rank_injective : ∀ {a b : Link}, a.rank = b.rank → a = b := by
  intro a b
  cases a <;> cases b <;> simp [rank]

instance : Ord Link := ⟨fun a b => compare a.rank b.rank⟩

instance : Std.TransOrd Link where
  eq_swap {a b} := @Std.OrientedCmp.eq_swap Nat compare _ a.rank b.rank
  isLE_trans {a b c} := @Std.TransCmp.isLE_trans Nat compare _ a.rank b.rank c.rank

instance : Std.LawfulEqOrd Link where
  compare_self := by
    intro a
    exact @Std.ReflCmp.compare_self Nat compare _ _
  eq_of_compare {a b} h := rank_injective
    (@Std.LawfulEqCmp.eq_of_compare Nat compare _ _ _ h)

/-- Every kind with its name. -/
def names : List (String × Link) :=
  [("source", .source), ("previous", .previous), ("next", .next), ("parent", .parent),
    ("child", .child)]

def name : Link → String
  | .source => "source"
  | .previous => "previous"
  | .next => "next"
  | .parent => "parent"
  | .child => "child"

def ofName? (s : String) : Option Link := names.lookup s

theorem ofName?_name (l : Link) : ofName? l.name = some l := by cases l <;> rfl

end Link

/-- A piece of indexed text. `index` is set on nodes that stand for a whole index. -/
structure Node where
  id : String
  text : String
  embedding : Option Embedding := none
  metadata : Metadata := ∅
  links : SortedMap Link (List String) := ∅
  document : Option String := none
  index : Option String := none
  deriving DecidableEq, Inhabited, Repr

namespace Node

/-- A node that stands for the index `index`. -/
def standingFor (id summary index : String) : Node := { id, text := summary, index := some index }

/-- `target` becomes the only link of its kind. -/
def setLink (n : Node) (kind : Link) (target : String) : Node :=
  { n with links := n.links.insert kind [target] }

/-- One more link of a kind, unless it is there already. -/
def addLink (n : Node) (kind : Link) (target : String) : Node :=
  let targets := n.links.getD kind []
  { n with links := n.links.insert kind (if targets.contains target then targets else targets ++ [target]) }

def linked (n : Node) (kind : Link) : List String := n.links.getD kind []

def source? (n : Node) : Option String := (n.linked .source).head?
def previous? (n : Node) : Option String := (n.linked .previous).head?
def next? (n : Node) : Option String := (n.linked .next).head?
def parent? (n : Node) : Option String := (n.linked .parent).head?

def children (n : Node) : List String := n.linked .child

/-- The text under a header of its metadata, if there is any. -/
def annotatedText (n : Node) : String :=
  if n.metadata.isEmpty then n.text
  else
    String.intercalate "\n" (n.metadata.toList.map (fun e => e.1 ++ ": " ++ e.2.display)) ++
      "\n\n" ++ n.text

end Node

/-- A text before it is cut. -/
structure Document where
  id : String
  text : String
  metadata : Metadata := ∅
  deriving DecidableEq, Inhabited, Repr

/-- A document named by the digest of its text. -/
def Document.ofText (text : String) : Document := { id := shortDigest text, text }

/-- Id of a document's chunk. -/
def chunkId (doc : String) (i : Nat) : String := doc ++ ":" ++ toString i

end CorpusIndex
