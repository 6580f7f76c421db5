import CorpusIndex.Config.Toml.Moment
import CorpusIndex.Config.Value
import CorpusIndex.Json.Reader
import CorpusIndex.Text.Blank

/-!
# Scalars of TOML

Keys, strings, numbers, truth values and dates. A reader takes a value off the start of a text.
-/
namespace CorpusIndex.Toml

open Decimal (isDigit)

abbrev Reader (α : Type) := List Char → Option (α × List Char)

def isBlank (c : Char) : Bool := c == ' ' || c == '\t'

/-- The text after blanks on the same line. -/
def skipBlanks (s : List Char) : List Char := s.dropWhile isBlank

/-- Control characters other than the tab stand nowhere but in line ends. -/
def isControl (c : Char) : Bool := (c.toNat < 32 && c != '\t') || c.toNat == 127

/-- The text at the end of the line, after a comment. -/
def skipComment? (s : List Char) : Option (List Char) :=
  match s with
  | '#' :: rest =>
    let after := rest.dropWhile (fun c => !isControl c)
    match after with
    | [] => some []
    | '\n' :: _ => some after
    | '\r' :: '\n' :: _ => some after
    | _ => none
  | _ => some s

/-- The text after a line end. -/
def lineEnd? : List Char → Option (List Char)
  | '\n' :: rest => some rest
  | '\r' :: '\n' :: rest => some rest
  | _ => none

/-- The text after blanks, comments and line ends. `fuel` bounds the number of lines. -/
def skipLines : (fuel : Nat) → List Char → Option (List Char)
  | 0, s => some s
  | fuel + 1, s => do
    let s ← skipComment? (skipBlanks s)
    match lineEnd? s with
    | some rest => skipLines fuel rest
    | none => some s

/-- The value of a run of hexadecimal digits. -/
def hexNumber? (ds : List Char) : Option Nat :=
  ds.foldlM (fun n d => (Json.hexValue? d).map (n * 16 + ·)) 0

/-- The character with a number, if there is one. -/
def character? (n : Nat) : Option Char := if n.isValidChar then some (Char.ofNat n) else none

/-- The character an escape stands for, after the backslash. -/
def escape : Reader Char
  | 'b' :: r => some (Char.ofNat 8, r)
  | 't' :: r => some ('\t', r)
  | 'n' :: r => some ('\n', r)
  | 'f' :: r => some (Char.ofNat 12, r)
  | 'r' :: r => some ('\r', r)
  | '"' :: r => some ('"', r)
  | '\\' :: r => some ('\\', r)
  | 'u' :: a :: b :: c :: d :: r => do return (← character? (← hexNumber? [a, b, c, d]), r)
  | 'U' :: a :: b :: c :: d :: e :: f :: g :: h :: r => do
    return (← character? (← hexNumber? [a, b, c, d, e, f, g, h]), r)
  | _ => none

/-- The rest of a basic string on one line. `fuel` bounds the length. -/
def basicRest : (fuel : Nat) → (seen : List Char) → Reader String
  | 0, _, _ => none
  | fuel + 1, seen, s =>
    match s with
    | '"' :: r => some (String.ofList seen.reverse, r)
    | '\\' :: r => do
      let (c, r) ← escape r
      basicRest fuel (c :: seen) r
    | c :: r => if isControl c then none else basicRest fuel (c :: seen) r
    | [] => none

/-- Quotes at the end of a string of several lines: three close it, and up to two before them belong
to it. -/
def closing? (quote : Char) (s : List Char) : Option (Nat × List Char) :=
  let n := (s.takeWhile (· == quote)).length
  if n < 3 then none
  else
    let inside := min (n - 3) 2
    some (inside, s.drop (inside + 3))

/-- The text after line ends and blanks. -/
def skipBlankLines : List Char → List Char
  | '\r' :: '\n' :: r => skipBlankLines r
  | c :: r => if isBlank c || c == '\n' then skipBlankLines r else c :: r
  | [] => []

/-- The text after line ends and blanks that a backslash swallows, if there is a line end. -/
def swallow? (s : List Char) : Option (List Char) := (lineEnd? (skipBlanks s)).map skipBlankLines

/-- The rest of a basic string of several lines. `fuel` bounds the length. -/
def basicLines : (fuel : Nat) → (seen : List Char) → Reader String
  | 0, _, _ => none
  | fuel + 1, seen, s =>
    match closing? '"' s with
    | some (inside, r) => some (String.ofList (List.replicate inside '"' ++ seen).reverse, r)
    | none =>
      match s with
      | '\\' :: r =>
        match swallow? r with
        | some r => basicLines fuel seen r
        | none => do
          let (c, r) ← escape r
          basicLines fuel (c :: seen) r
      | '\r' :: '\n' :: r => basicLines fuel ('\n' :: seen) r
      | '\n' :: r => basicLines fuel ('\n' :: seen) r
      | c :: r => if isControl c then none else basicLines fuel (c :: seen) r
      | [] => none

/-- The rest of a literal string of several lines. `fuel` bounds the length. -/
def literalLines : (fuel : Nat) → (seen : List Char) → Reader String
  | 0, _, _ => none
  | fuel + 1, seen, s =>
    match closing? '\'' s with
    | some (inside, r) => some (String.ofList (List.replicate inside '\'' ++ seen).reverse, r)
    | none =>
      match s with
      | '\r' :: '\n' :: r => literalLines fuel ('\n' :: seen) r
      | '\n' :: r => literalLines fuel ('\n' :: seen) r
      | c :: r => if isControl c then none else literalLines fuel (c :: seen) r
      | [] => none

/-- A literal string on one line. -/
def literalRest (s : List Char) : Option (String × List Char) :=
  let inside := s.takeWhile (fun c => c != '\'' && !isControl c)
  match s.drop inside.length with
  | '\'' :: r => some (String.ofList inside, r)
  | _ => none

/-- The text after a line end that follows opening quotes. -/
def dropFirstLineEnd (s : List Char) : List Char := (lineEnd? s).getD s

/-- A quoted string of any kind. -/
def string : Reader String
  | '"' :: '"' :: '"' :: r => basicLines (r.length + 1) [] (dropFirstLineEnd r)
  | '"' :: r => basicRest (r.length + 1) [] r
  | '\'' :: '\'' :: '\'' :: r => literalLines (r.length + 1) [] (dropFirstLineEnd r)
  | '\'' :: r => literalRest r
  | _ => none

def isBareKeyChar (c : Char) : Bool := c.isAlphanum || c == '_' || c == '-'

/-- One name of a key. -/
def simpleKey (s : List Char) : Option (String × List Char) :=
  match s with
  | '"' :: r => basicRest (r.length + 1) [] r
  | '\'' :: r => literalRest r
  | _ =>
    let name := s.takeWhile isBareKeyChar
    if name.isEmpty then none else some (String.ofList name, s.drop name.length)

/-- The greatest number of names in a key, and of arrays and tables around a value. -/
def maxDepth : Nat := 79

/-- A key: names with points between them, `bound` at most. -/
def names : (bound : Nat) → Reader (List String)
  | 0, _ => none
  | bound + 1, s => do
    let (name, r) ← simpleKey (skipBlanks s)
    match skipBlanks r with
    | '.' :: r => do
      let (more, r) ← names bound r
      return (name :: more, r)
    | r => return ([name], r)

/-- A key. -/
def key : Reader (List String) := names maxDepth

/-- Digits with single underscores between them, without the underscores. -/
def digits? (isDigit : Char → Bool) (s : List Char) : Option (List Char) :=
  let groups := Text.pieces (· == '_') s
  if groups.all (fun g => !g.isEmpty && g.all isDigit) then some groups.flatten else none

/-- Decimal digits without a leading zero. -/
def wholeDigits? (s : List Char) : Option (List Char) := do
  let ds ← digits? isDigit s
  if ds.length > 1 && ds.head? == some '0' then none else return ds

def signed (s : List Char) : Bool × List Char :=
  match s with
  | '-' :: r => (true, r)
  | '+' :: r => (false, r)
  | r => (false, r)

/-- A whole number within 64 signed bits. -/
def bounded? (n : Int) : Option ConfigValue :=
  if -(Decimal.signedBound : Int) ≤ n && n < Decimal.signedBound then some (.int n) else none

/-- A whole number: decimal with an optional sign, or in base 16, 8 or 2 after a mark. -/
def wholeNumber? (s : List Char) : Option ConfigValue :=
  match s with
  | '0' :: 'x' :: ds => do bounded? (← hexNumber? (← digits? (fun c => (Json.hexValue? c).isSome) ds))
  | '0' :: 'o' :: ds => do bounded? (inBase 8 (← digits? (fun c => '0' ≤ c && c ≤ '7') ds))
  | '0' :: 'b' :: ds => do bounded? (inBase 2 (← digits? (fun c => c == '0' || c == '1') ds))
  | _ => do
    let (negative, ds) := signed s
    let n := Decimal.ofDigits (← wholeDigits? ds)
    bounded? (if negative then -(n : Int) else n)
where
  inBase (b : Nat) (ds : List Char) : Int :=
    ((ds.foldl (fun n d => n * b + (d.toNat - '0'.toNat)) 0 : Nat) : Int)

/-- A number with a point or an exponent, or the name of an infinity or of no number. Digits too great
for a number are refused unless they are negative. -/
def realNumber? (s : List Char) : Option ConfigValue :=
  let (negative, body) := signed s
  if body == ['i', 'n', 'f'] then some (.real (Decimal.Reading.infinite negative).toFloat)
  else if body == ['n', 'a', 'n'] then some (.real Decimal.Reading.notANumber.toFloat)
  else do
    let whole ← wholeDigits? (body.takeWhile (fun c => isDigit c || c == '_'))
    let rest := body.dropWhile (fun c => isDigit c || c == '_')
    let (fraction, rest) ← match rest with
      | '.' :: r => do
        let f ← digits? isDigit (r.takeWhile (fun c => isDigit c || c == '_'))
        pure (f, r.dropWhile (fun c => isDigit c || c == '_'))
      | r => pure ([], r)
    let exponent : Int ← match rest with
      | [] => if fraction.isEmpty then none else pure 0
      | c :: r =>
        if c == 'e' || c == 'E' then do
          let (down, ds) := signed r
          let n := Decimal.ofDigits (← digits? isDigit ds)
          pure (if down then -(n : Int) else n)
        else none
    let x := (Decimal.Reading.decimal negative (Decimal.ofDigits (whole ++ fraction))
      (exponent - fraction.length)).toFloat
    if x.isInf && !negative then none else return .real x

/-- A number or truth value that is the whole of a text. -/
def bare? (s : List Char) : Option ConfigValue :=
  if s == ['t', 'r', 'u', 'e'] then some (.bool true)
  else if s == ['f', 'a', 'l', 's', 'e'] then some (.bool false)
  else match wholeNumber? s with
    | some v => some v
    | none => realNumber? s

def isBareChar (c : Char) : Bool := c.isAlphanum || c == '_' || c == '+' || c == '-' || c == '.'

/-- The name under which a moment is kept. -/
def momentField : String := "$__toml_private_datetime"

/-- A moment as a table with one field. -/
def ofMoment (m : Moment) : ConfigValue := .table [(momentField, .text m.toText)]

/-- A scalar. -/
def scalar (s : List Char) : Option (ConfigValue × List Char) :=
  match s.head? with
  | some '"' => (string s).map (fun r => (.text r.1, r.2))
  | some '\'' => (string s).map (fun r => (.text r.1, r.2))
  | _ =>
    match moment? s with
    | some (m, rest) => some (ofMoment m, rest)
    | none =>
      let text := s.takeWhile isBareChar
      (bare? text).map (·, s.drop text.length)

end CorpusIndex.Toml
