import CorpusIndex.Config.Toml.Scalar
import CorpusIndex.Path

/-!
# Configuration from the environment

Variables whose names start with a mark are settings; two underscores separate the names of nested
tables. A value is read as a truth value, number, list or table where its whole text is one, and is a
text otherwise.
-/
namespace CorpusIndex.ConfigValue

/-- Characters that end a bare value. -/
def isSeparator (c : Char) : Bool :=
  c == ',' || c == '\x7b' || c == '\x7d' || c == '[' || c == ']'

def isSpace (c : Char) : Bool := c == ' ' || c == '\t' || c == '\n' || c == '\r' || c.toNat == 12

def skipSpaces (s : List Char) : List Char := s.dropWhile isSpace

/-- A value without brackets or quotes: a number if it is one, or a text. -/
def ofBare (s : List Char) : ConfigValue :=
  let s := Text.trim s
  let real? := if s.contains '.' then (Decimal.readReal s).toOption else none
  match real? with
  | some r => .real r.toFloat
  | none =>
    match Decimal.readWhole? s with
    | some n => .int n
    | none =>
      match Decimal.readSigned? s with
      | some n => .int n
      | none => .text (String.ofList s)

/-- A text in quotes, with the escapes of a basic string. -/
def quoted? : List Char → Option (String × List Char)
  | '"' :: rest => Toml.basicRest (rest.length + 1) [] rest
  | _ => none

/-- The key of a field: quoted, or a bare key. -/
def fieldKey (s : List Char) : Option (String × List Char) :=
  match s.head? with
  | some '"' => quoted? s
  | _ =>
    let name := s.takeWhile Toml.isBareKeyChar
    if name.isEmpty then none else some (String.ofList name, s.drop name.length)

mutual
/-- A value at the start of a text. `fuel` bounds nesting and parts. -/
def reading : (fuel : Nat) → List Char → Option (ConfigValue × List Char)
  | 0, _ => none
  | fuel + 1, s =>
    let s := skipSpaces s
    let found : Option (ConfigValue × List Char) :=
      match s with
      | 't' :: 'r' :: 'u' :: 'e' :: rest => some (.bool true, rest)
      | 'f' :: 'a' :: 'l' :: 's' :: 'e' :: rest => some (.bool false, rest)
      | '\x7b' :: rest => readingFields fuel [] rest
      | '[' :: rest => readingItems fuel [] rest
      | '"' :: _ => (quoted? s).map (fun r => (.text r.1, r.2))
      | '\'' :: c :: '\'' :: rest => some (.text (String.ofList [c]), rest)
      | '\'' :: _ => none
      | s =>
        let bare := s.takeWhile (fun c => !isSeparator c)
        some (ofBare bare, s.drop bare.length)
    found.map (fun r => (r.1, skipSpaces r.2))
/-- Items up to the closing bracket. Blanks before the bracket are an empty text. -/
def readingItems : (fuel : Nat) → List ConfigValue → List Char → Option (ConfigValue × List Char)
  | 0, _, _ => none
  | _ + 1, seen, ']' :: rest => some (.list seen.reverse, rest)
  | fuel + 1, seen, s =>
    match reading fuel s with
    | some (v, ',' :: rest) => readingItems fuel (v :: seen) rest
    | some (v, ']' :: rest) => some (.list (v :: seen).reverse, rest)
    | _ => none
/-- Fields up to the closing brace. -/
def readingFields : (fuel : Nat) → List (String × ConfigValue) → List Char →
    Option (ConfigValue × List Char)
  | 0, _, _ => none
  | _ + 1, seen, '\x7d' :: rest => some (.table seen, rest)
  | fuel + 1, seen, s =>
    match fieldKey (skipSpaces s) with
    | none => none
    | some (k, rest) =>
      match skipSpaces rest with
      | '=' :: rest =>
        match reading fuel rest with
        | some (v, ',' :: rest) => readingFields fuel (set k v seen) rest
        | some (v, '\x7d' :: rest) => some (.table (set k v seen), rest)
        | _ => none
      | _ => none
end

/-- The value a text stands for. -/
def ofText (text : String) : ConfigValue :=
  let s := text.toList
  match reading (s.length + 1) s with
  | some (v, []) => v
  | _ => .text text

/-- What follows a mark at the start of a name, whatever the case of the two. -/
def afterMark? (mark : String) (name : List Char) : Option (List Char) :=
  Text.afterPrefix? (mark.toList.map Char.toLower) (name.map Char.toLower)

/-- The names of the tables that lead to a variable's setting, unless one of them is empty. Blanks
around the variable's name and around what follows the mark do not count. -/
def settingPath? (mark name : String) : Option (List String) := do
  let rest ← afterMark? mark (Text.trim name.toList)
  let key := Text.trim (Text.replaceAll ['_', '_'] ['.'] rest)
  let names := (Text.pieces (· == '.') key).map String.ofList
  if names.contains "" then none else return names

/-- The settings in an environment, laid over one another in the order of their names. -/
def ofEnvironment (mark : String) (env : Environment) : ConfigValue :=
  env.toList.foldl
    (fun base e =>
      match settingPath? mark e.1 with
      | some path => overlay base (nest path (ofText e.2))
      | none => base)
    (.table [])

end CorpusIndex.ConfigValue
