import CorpusIndex.Json.Lexeme
import CorpusIndex.Json.Number

/-!
# Skipping values

The end of a value is found without a look at what it stands for: its numbers may be out of range, its
strings may hold single surrogates, and it may be nested to any depth. Only its form has to be right.
-/
namespace CorpusIndex.Json

/-- The text after a word that stands for a value. -/
def afterWord? (word s : List Char) : Option (List Char) :=
  if word.isPrefixOf s then some (s.drop word.length) else none

mutual
/-- A value is next. `closers` are the brackets to come, the innermost first; `fuel` bounds the length. -/
def skipValue : (fuel : Nat) → (closers : List Char) → List Char → Option (List Char)
  | 0, _, _ => none
  | fuel + 1, closers, s =>
    match skipBlanks s with
    | [] => none
    | '"' :: rest => (skipString rest).bind (skipRest fuel closers)
    | 'n' :: rest => (afterWord? ['u', 'l', 'l'] rest).bind (skipRest fuel closers)
    | 't' :: rest => (afterWord? ['r', 'u', 'e'] rest).bind (skipRest fuel closers)
    | 'f' :: rest => (afterWord? ['a', 'l', 's', 'e'] rest).bind (skipRest fuel closers)
    | '[' :: rest =>
      match skipBlanks rest with
      | ']' :: rest => skipRest fuel closers rest
      | rest => skipValue fuel (']' :: closers) rest
    | '\x7b' :: rest =>
      match skipBlanks rest with
      | '\x7d' :: rest => skipRest fuel closers rest
      | rest => skipField fuel ('\x7d' :: closers) rest
    | s => (literal? s).bind (fun r => skipRest fuel closers r.2)
/-- A key is next. -/
def skipField : (fuel : Nat) → (closers : List Char) → List Char → Option (List Char)
  | 0, _, _ => none
  | fuel + 1, closers, s =>
    match skipBlanks s with
    | '"' :: rest =>
      match (skipString rest).map skipBlanks with
      | some (':' :: rest) => skipValue fuel closers rest
      | _ => none
    | _ => none
/-- A comma or a closing bracket is next, unless none is to come. -/
def skipRest : (fuel : Nat) → (closers : List Char) → List Char → Option (List Char)
  | _, [], s => some s
  | 0, _, _ => none
  | fuel + 1, close :: closers, s =>
    match skipBlanks s with
    | [] => none
    | c :: rest =>
      if c == close then skipRest fuel closers rest
      else if c == ',' then
        if close == ']' then skipValue fuel (close :: closers) rest
        else skipField fuel (close :: closers) rest
      else none
end

/-- The text after the value at its start. -/
def skip? (s : List Char) : Option (List Char) := skipValue (s.length + 1) [] s

end CorpusIndex.Json
