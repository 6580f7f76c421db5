import CorpusIndex.Failure
import CorpusIndex.SortedMap
import CorpusIndex.Json.Number
import CorpusIndex.Json.Reader

/-!
# Decoding values

Decoders take a value apart and refuse what has the wrong shape. A record is written as an object, or
as an array of its fields in order. Fields that are not known are passed over; a known field may not
come twice.
-/
namespace CorpusIndex.Json

abbrev Decoded := Except Unreadable

variable {α β κ : Type}

def malformed : Decoded α := .error .malformed

def asString : Json → Decoded String
  | .string s => .ok s
  | _ => malformed

def asBool : Json → Decoded Bool
  | .bool b => .ok b
  | _ => malformed

/-- A whole number of a 64-bit word. -/
def asNat : Json → Decoded Nat
  | .number literal =>
    match numberValue? literal with
    | some (.whole n) => if 0 ≤ n then .ok n.toNat else malformed
    | _ => malformed
  | _ => malformed

def asFloat32 : Json → Decoded Float32
  | .number literal =>
    match numberValue? literal with
    | some v => .ok v.toFloat32
    | none => malformed
  | _ => malformed

def asList (item : Json → Decoded α) : Json → Decoded (List α)
  | .array items => items.mapM item
  | _ => malformed

def asPair (first : Json → Decoded α) (second : Json → Decoded β) : Json → Decoded (α × β)
  | .array [a, b] => do return (← first a, ← second b)
  | _ => malformed

/-- Nothing is written `null`. -/
def asOption (item : Json → Decoded α) : Json → Decoded (Option α)
  | .null => .ok none
  | j => some <$> item j

/-- Fields under decoded keys; the last one of a key wins. -/
def asMap [Ord κ] [Std.TransOrd κ] [Std.LawfulEqOrd κ] (key : String → Decoded κ)
    (item : Json → Decoded α) : Json → Decoded (SortedMap κ α)
  | .object fields => do
    return .ofList (← fields.mapM (fun f => do return (← key f.1, ← item f.2)))
  | _ => malformed

def asStringMap (item : Json → Decoded α) : Json → Decoded (SortedMap String α) := asMap .ok item

/-- An array of members, repetitions counting once. -/
def asSet [Ord κ] [Std.TransOrd κ] [Std.LawfulEqOrd κ] (item : Json → Decoded κ) (j : Json) :
    Decoded (SortedSet κ) := do
  return .ofElems (← asList item j)

/-- The known fields of a record, each under its name. -/
abbrev Fields := List (String × Json)

/-- Known fields in the order they are written, none of them twice. `check` sees each in turn. -/
def knownFields (known : List String) (check : String → Json → Decoded Unit) :
    (seen : List String) → List (String × Json) → Decoded Fields
  | _, [] => .ok []
  | seen, (name, j) :: rest =>
    if known.contains name then
      if seen.contains name then malformed
      else do
        check name j
        return (name, j) :: (← knownFields known check (name :: seen) rest)
    else knownFields known check seen rest

/-- The fields of a record. -/
def record (known : List String) (j : Json) (check : String → Json → Decoded Unit := fun _ _ => .ok ()) :
    Decoded Fields :=
  match j with
  | .object fields => knownFields known check [] fields
  | .array items => do
    let fields := known.zip items
    fields.forM (fun f => check f.1 f.2)
    if items.length ≤ known.length then return fields else malformed
  | _ => malformed

namespace Fields

/-- A field that has to be there. -/
def required (fs : Fields) (name : String) (item : Json → Decoded α) : Decoded α :=
  match fs.lookup name with
  | some j => item j
  | none => malformed

/-- A field that may be left out. -/
def optional (fs : Fields) (name : String) (default : α) (item : Json → Decoded α) : Decoded α :=
  match fs.lookup name with
  | some j => item j
  | none => .ok default

end Fields

/-- Decode a whole text of which only a shape is read. Of a broken text the parts before the break are
decoded too: a fault that shows in them comes first. -/
def decodeText (shape : Shape) (item : Json → Decoded α) (text : String) : Decoded α :=
  match value maxDepth shape text.toList with
  | .complete j rest => do
    let a ← item j
    if atEnd rest then return a else malformed
  | .broken none => malformed
  | .broken (some j) => do
    let _ ← item j
    malformed

end CorpusIndex.Json
