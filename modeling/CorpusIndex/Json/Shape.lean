import CorpusIndex.Json.Basic

/-!
# Shapes of values

A shape says which fields of an object are looked at. What stands under other names is passed over
without being read.
-/
namespace CorpusIndex.Json

inductive Shape where
  | any
  | record (fields : List (String × Shape))
  | list (item : Shape)
  | map (item : Shape)
  deriving Inhabited, Repr

namespace Shape

/-- A record of fields that are read as they are. -/
def ofFields (names : List String) : Shape := .record (names.map (·, .any))

/-- The shape of an item of an array. A record may be an array of its fields in order. -/
def item (n : Nat) : Shape → Shape
  | .record fields => (fields[n]?.map (·.2)).getD .any
  | .list item => item
  | _ => .any

/-- The shape of a field of an object, unless it is passed over. -/
def field? (name : String) : Shape → Option Shape
  | .record fields => fields.lookup name
  | .map item => some item
  | _ => some .any

/-- A broken value of this shape is worth its parts. -/
def isPartial : Shape → Bool
  | .any => false
  | _ => true

end Shape
end CorpusIndex.Json
