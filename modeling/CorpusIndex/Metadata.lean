import CorpusIndex.SortedMap
import CorpusIndex.Decimal.Binary
import CorpusIndex.Decimal.Notation

/-!
# Metadata

Scalar values under string keys, and exact-match conditions on them.
-/
namespace CorpusIndex

/-- A scalar. Values of different kinds are never equal. -/
inductive MetadataValue where
  | bool (b : Bool)
  | int (n : Int)
  | real (x : Float)
  | text (s : String)
  deriving DecidableEq, Inhabited, Repr

namespace MetadataValue

/-- Equality as values: the two zeros agree and nothing equals what is not a number. -/
def agrees : MetadataValue → MetadataValue → Bool
  | .bool a, .bool b => a == b
  | .int a, .int b => a == b
  | .real a, .real b => a == b
  | .text a, .text b => a == b
  | _, _ => false

/-- Display form; real numbers never have an exponent. -/
def display : MetadataValue → String
  | .bool b => if b then "true" else "false"
  | .int n => toString n
  | .real x => String.ofList (Decimal.plain.write (Decimal.partsOfFloat x))
  | .text s => s

end MetadataValue

abbrev Metadata := SortedMap String MetadataValue

/-- Conditions that all have to hold. -/
structure MetadataFilter where
  conditions : List (String × MetadataValue)
  deriving DecidableEq, Inhabited, Repr

namespace MetadataFilter

def isEmpty (f : MetadataFilter) : Bool := f.conditions.isEmpty

/-- Every named key is bound to a value that agrees with the required one. -/
def accepts (f : MetadataFilter) (m : Metadata) : Bool :=
  f.conditions.all (fun c => (m.get? c.1).any (·.agrees c.2))

end MetadataFilter
end CorpusIndex
