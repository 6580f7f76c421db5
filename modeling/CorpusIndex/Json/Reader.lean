import CorpusIndex.Json.Basic
import CorpusIndex.Json.Lexeme
import CorpusIndex.Json.Number
import CorpusIndex.Json.Shape
import CorpusIndex.Json.Skip

/-!
# Reading values

A reader takes a value off the start of a text and gives what follows. Where the text is broken, the
parts before that place are kept, so that a fault in them can be told first. Containers may be nested
127 deep, which also bounds the recursion; only what is skipped may be deeper.
-/
namespace CorpusIndex.Json

/-- What a reader finds. -/
inductive Reading where
  | complete (j : Json) (rest : List Char)
  | broken (parts : Option Json)
  deriving Inhabited, Repr

namespace Reading

def ofOption : Option (Json × List Char) → Reading
  | some (j, rest) => .complete j rest
  | none => .broken none

/-- A reading whose parts count only if `keep` holds. -/
def keepParts (keep : Bool) : Reading → Reading
  | .broken parts => .broken (if keep then parts else none)
  | r => r

end Reading

/-- Items up to the closing bracket, one at least. The reader of an item is told its number. -/
def items (item : Nat → List Char → Reading) : (fuel : Nat) → List Json → List Char → Reading
  | 0, _, _ => .broken none
  | fuel + 1, seen, s =>
    match item seen.length s with
    | .broken parts => .broken (some (.array (seen.reverse ++ parts.toList)))
    | .complete j rest =>
      match skipBlanks rest with
      | ',' :: rest => items item fuel (j :: seen) rest
      | ']' :: rest => .complete (.array (j :: seen).reverse) rest
      | _ => .broken (some (.array (j :: seen).reverse))

/-- Fields up to the closing brace, one at least. The reader of a field is told its name. -/
def fields (field : String → List Char → Reading) :
    (fuel : Nat) → List (String × Json) → List Char → Reading
  | 0, _, _ => .broken none
  | fuel + 1, seen, s =>
    let before := Reading.broken (some (.object seen.reverse))
    match skipBlanks s with
    | '"' :: s =>
      match stringRest [] s with
      | none => before
      | some (k, rest) =>
        match skipBlanks rest with
        | ':' :: rest =>
          match field k rest with
          | .broken parts =>
            .broken (some (.object (seen.reverse ++ parts.toList.map (fun j => (k, j)))))
          | .complete j rest =>
            match skipBlanks rest with
            | ',' :: rest => fields field fuel ((k, j) :: seen) rest
            | '\x7d' :: rest => .complete (.object ((k, j) :: seen).reverse) rest
            | _ => .broken (some (.object ((k, j) :: seen).reverse))
        | _ => before
    | _ => before

/-- A word that stands for a value. -/
def keyword (word : List Char) (j : Json) (s : List Char) : Reading :=
  .ofOption ((afterWord? word s).map (j, ·))

/-- A value that is passed over counts as nothing. -/
def skipped (s : List Char) : Reading := .ofOption ((skip? s).map (.null, ·))

/-- A number, which has to stand for something. -/
def readNumber (s : List Char) : Reading :=
  match literal? s with
  | none => .broken none
  | some (l, rest) =>
    if l.value?.isSome then .complete (.number (s.take (s.length - rest.length))) rest
    else .broken none

/-- A value of a shape with at most `depth` containers around its parts. -/
def value : (depth : Nat) → Shape → List Char → Reading
  | depth, shape, s =>
    match skipBlanks s with
    | [] => .broken none
    | '"' :: rest => .ofOption ((stringRest [] rest).map (fun r => (.string r.1, r.2)))
    | 'n' :: rest => keyword ['u', 'l', 'l'] .null rest
    | 't' :: rest => keyword ['r', 'u', 'e'] (.bool true) rest
    | 'f' :: rest => keyword ['a', 'l', 's', 'e'] (.bool false) rest
    | '[' :: rest =>
      match depth with
      | 0 => .broken none
      | depth + 1 =>
        match skipBlanks rest with
        | ']' :: rest => .complete (.array []) rest
        | rest =>
          (items (fun n => value depth (shape.item n)) (rest.length + 1) [] rest).keepParts
            shape.isPartial
    | '\x7b' :: rest =>
      match depth with
      | 0 => .broken none
      | depth + 1 =>
        match skipBlanks rest with
        | '\x7d' :: rest => .complete (.object []) rest
        | rest =>
          (fields
            (fun name => match shape.field? name with
              | some shape => value depth shape
              | none => skipped)
            (rest.length + 1) [] rest).keepParts shape.isPartial
    | s => readNumber s

/-- Nesting allowed in a text. -/
def maxDepth : Nat := 127

/-- Only blanks are left. -/
def atEnd (rest : List Char) : Bool := (skipBlanks rest).isEmpty

/-- The value of a whole text. -/
def parse? (s : String) : Option Json :=
  match value maxDepth .any s.toList with
  | .complete j rest => if atEnd rest then some j else none
  | .broken _ => none

end CorpusIndex.Json
