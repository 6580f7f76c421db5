/-!
# Values of the persisted format

Numbers keep their written form; what a form stands for is decided where it is read. An object keeps
its fields as they are written, repetitions included.
-/
namespace CorpusIndex

inductive Json where
  | null
  | bool (b : Bool)
  | number (literal : List Char)
  | string (s : String)
  | array (items : List Json)
  | object (fields : List (String × Json))
  deriving Inhabited, Repr

namespace Json

def ofNat (n : Nat) : Json := .number (Nat.toDigits 10 n)

def ofInt (n : Int) : Json :=
  .number (if n < 0 then '-' :: Nat.toDigits 10 n.natAbs else Nat.toDigits 10 n.natAbs)

def strings (l : List String) : Json := .array (l.map .string)

/-- `null` for nothing. -/
def orNull (f : α → Json) : Option α → Json
  | none => .null
  | some a => f a

/-- An object without the fields that hold nothing. -/
def present (fields : List (String × Option Json)) : Json :=
  .object (fields.filterMap (fun f => f.2.map (f.1, ·)))

end Json
end CorpusIndex
