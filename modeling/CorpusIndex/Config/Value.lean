/-!
# Values of configurations

Scalars, lists and tables. Laying one configuration over another replaces values and joins tables.
-/
namespace CorpusIndex

inductive ConfigValue where
  | bool (b : Bool)
  | int (n : Int)
  | real (x : Float)
  | text (s : String)
  | list (items : List ConfigValue)
  | table (fields : List (String × ConfigValue))
  deriving Inhabited, Repr

namespace ConfigValue

/-- Fields with `k` bound to `v`. -/
def set (k : String) (v : ConfigValue) : List (String × ConfigValue) → List (String × ConfigValue)
  | [] => [(k, v)]
  | (j, w) :: rest => if j = k then (k, v) :: rest else (j, w) :: set k v rest

mutual
/-- `top` laid over `base`. -/
def overlay (base : ConfigValue) : (top : ConfigValue) → ConfigValue
  | .table top =>
    match base with
    | .table fields => .table (fieldsOver fields top)
    | _ => .table top
  | top => top
/-- Fields laid over others one after another. -/
def fieldsOver (fields : List (String × ConfigValue)) :
    (top : List (String × ConfigValue)) → List (String × ConfigValue)
  | [] => fields
  | (k, v) :: rest =>
    let laid := match fields.lookup k with
      | some w => overlay w v
      | none => v
    fieldsOver (set k laid fields) rest
end

/-- The value under a chain of names. -/
def find? : ConfigValue → List String → Option ConfigValue
  | v, [] => some v
  | .table fields, k :: rest => (fields.lookup k).bind (fun v => v.find? rest)
  | _, _ :: _ => none

/-- A value under a chain of names, each the only one in its table. -/
def nest : List String → ConfigValue → ConfigValue
  | [], v => v
  | k :: rest, v => .table [(k, nest rest v)]

end ConfigValue
end CorpusIndex
