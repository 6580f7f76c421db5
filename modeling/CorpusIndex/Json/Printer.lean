import CorpusIndex.Bytes
import CorpusIndex.Decimal.Notation
import CorpusIndex.Json.Basic

/-!
# Printing values

The compact form has no blanks. The indented form puts every item and field on a line of its own,
two spaces deeper than the brackets around it; empty brackets stay together.
-/
namespace CorpusIndex.Json

/-- One character of a string; quotes, backslashes and control characters are escaped. -/
def escapeChar (c : Char) : List Char :=
  match c with
  | '"' => ['\\', '"']
  | '\\' => ['\\', '\\']
  | '\n' => ['\\', 'n']
  | '\r' => ['\\', 'r']
  | '\t' => ['\\', 't']
  | _ =>
    if c.toNat == 8 then ['\\', 'b']
    else if c.toNat == 12 then ['\\', 'f']
    else if c.toNat < 32 then '\\' :: 'u' :: Digest.hexDigits 4 c.toNat
    else [c]

def quoted (s : String) : List Char := '"' :: s.toList.flatMap escapeChar ++ ['"']

mutual
/-- The compact form. -/
def text : Json → List Char
  | .null => ['n', 'u', 'l', 'l']
  | .bool true => ['t', 'r', 'u', 'e']
  | .bool false => ['f', 'a', 'l', 's', 'e']
  | .number literal => literal
  | .string s => quoted s
  | .array items => '[' :: itemTexts items ++ [']']
  | .object fields => '\x7b' :: fieldTexts fields ++ ['\x7d']
/-- Items with commas between them. -/
def itemTexts : List Json → List Char
  | [] => []
  | [j] => text j
  | j :: rest => text j ++ ',' :: itemTexts rest
/-- Fields with commas between them. -/
def fieldTexts : List (String × Json) → List Char
  | [] => []
  | [(k, j)] => quoted k ++ ':' :: text j
  | (k, j) :: rest => quoted k ++ ':' :: (text j ++ ',' :: fieldTexts rest)
end

/-- The start of a line at a depth. -/
def newline (depth : Nat) : List Char := '\n' :: List.replicate (2 * depth) ' '

mutual
/-- The indented form at a depth. -/
def indented (depth : Nat) : Json → List Char
  | .array [] => ['[', ']']
  | .array items => '[' :: indentedItems (depth + 1) items ++ newline depth ++ [']']
  | .object [] => ['\x7b', '\x7d']
  | .object fields => '\x7b' :: indentedFields (depth + 1) fields ++ newline depth ++ ['\x7d']
  | .null => text .null
  | .bool b => text (.bool b)
  | .number literal => literal
  | .string s => quoted s
/-- Items on lines of their own. -/
def indentedItems (depth : Nat) : List Json → List Char
  | [] => []
  | [j] => newline depth ++ indented depth j
  | j :: rest => newline depth ++ (indented depth j ++ ',' :: indentedItems depth rest)
/-- Fields on lines of their own. -/
def indentedFields (depth : Nat) : List (String × Json) → List Char
  | [] => []
  | [(k, j)] => newline depth ++ (quoted k ++ ':' :: ' ' :: indented depth j)
  | (k, j) :: rest =>
    newline depth ++ (quoted k ++ ':' :: ' ' :: (indented depth j ++ ',' :: indentedFields depth rest))
end

/-- The compact form as a string. -/
def compact (j : Json) : String := String.ofList j.text

/-- The indented form as a string. -/
def pretty (j : Json) : String := String.ofList (j.indented 0)

/-- Single-precision numbers have a point when their leading exponent is between -6 and 12. -/
def singleNotation : Decimal.Notation := ⟨fun e => -6 ≤ e && e ≤ 12, true, .toEven⟩

/-- Double-precision numbers have a point when their leading exponent is between -5 and 15. -/
def doubleNotation : Decimal.Notation := ⟨fun e => -5 ≤ e && e ≤ 15, true, .toEven⟩

/-- The shortest form that reads back, `null` where there are no digits. -/
def ofFloat32 (x : Float32) : Json :=
  match singleNotation.write? (Decimal.partsOfFloat32 x) with
  | some literal => .number literal
  | none => .null

/-- The shortest form that reads back, `null` where there are no digits. -/
def ofFloat (x : Float) : Json :=
  match doubleNotation.write? (Decimal.partsOfFloat x) with
  | some literal => .number literal
  | none => .null

end CorpusIndex.Json
