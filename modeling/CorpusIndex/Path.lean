import CorpusIndex.SortedMap
import CorpusIndex.Text.Alphanumeric
import CorpusIndex.Text.Blank
import CorpusIndex.Text.Search

/-!
# Paths

Paths as users write them: with variables of the environment and a mark for the home directory, and
relative to some directory.
-/
namespace CorpusIndex

/-- Variables of the environment. -/
abbrev Environment := SortedMap String String

namespace Path

def isAbsolute (p : String) : Bool := p.toList.head? == some '/'

/-- `p` as seen from `base`. -/
def join (base p : String) : String :=
  if isAbsolute p then p
  else if base.isEmpty || base.toList.getLast? == some '/' then base ++ p
  else base ++ "/" ++ p

/-- The names in a path, without empty ones. -/
def names (p : String) : List String :=
  ((Text.pieces (· == '/') p.toList).map String.ofList).filter (· ≠ "")

/-- The names in a path that are no references to the same directory. -/
def components (p : String) : List String := (names p).filter (· ≠ ".")

/-- The path ends in a slash, so that its last name is one of a directory. -/
def leadsInto (p : String) : Bool := p.toList.getLast? == some '/'

/-- The directory a path starts from. -/
def start (directory : List String) (p : String) : List String :=
  if isAbsolute p then [] else directory

/-- Follow one name from a directory: a dot leads nowhere else, two dots to the directory above. -/
def step (directory : List String) (name : String) : List String :=
  if name = "." then directory
  else if name = ".." then directory.dropLast
  else directory ++ [name]

/-- The places on the way that names lead from a directory, both ends included. -/
def visited (directory : List String) : List String → List (List String)
  | [] => [directory]
  | name :: rest => directory :: visited (step directory name) rest

/-- The names of the directory above: the last name is dropped, and dots around it. -/
def above (names : List String) : List String :=
  ((names.reverse.dropWhile (· = ".")).tail.dropWhile (· = ".")).reverse

theorem length_above_lt {names : List String} (h : names ≠ []) :
    (above names).length < names.length := by
  have len (l : List String) : (l.dropWhile (· = ".")).length ≤ l.length :=
    (List.dropWhile_sublist _).length_le
  have pos : 0 < names.length := List.length_pos_iff.2 h
  have outer := len names.reverse
  have inner := len (names.reverse.dropWhile (· = ".")).tail
  simp only [above, List.length_reverse, List.length_tail] at *
  omega

/-- The part of a text before and after the first `pattern`. -/
def splitAt? (pattern : List Char) : List Char → Option (List Char × List Char)
  | [] => none
  | c :: cs =>
    match Text.afterPrefix? pattern (c :: cs) with
    | some rest => some ([], rest)
    | none => (splitAt? pattern cs).map (fun r => (c :: r.1, r.2))

/-- The value of a braced variable: its own if it is set, or the default after `:-`. -/
def bracedValue (env : Environment) (inner : List Char) : Option (List Char) :=
  let (name, default) := match splitAt? [':', '-'] inner with
    | some (name, default) => if name.isEmpty then (inner, none) else (name, some default)
    | none => (inner, none)
  match env.get? (String.ofList name) with
  | some v => some v.toList
  | none => default

/-- Put variables into a text; nothing if one of them is not set. `fuel` bounds the length. -/
def substitute (env : Environment) : (fuel : Nat) → List Char → Option (List Char)
  | 0, s => some s
  | _, [] => some []
  | fuel + 1, '$' :: '$' :: rest => ('$' :: ·) <$> substitute env fuel rest
  | fuel + 1, '$' :: '\x7b' :: rest =>
    match splitAt? ['\x7d'] rest with
    | none => (fun r => '$' :: '\x7b' :: r) <$> substitute env fuel rest
    | some (inner, rest) => do
      let v ← bracedValue env inner
      return v ++ (← substitute env fuel rest)
  | fuel + 1, '$' :: rest =>
    let name := rest.takeWhile Text.isWordChar
    if name.isEmpty then ('$' :: ·) <$> substitute env fuel rest
    else do
      let v ← env.get? (String.ofList name)
      return v.toList ++ (← substitute env fuel (rest.dropWhile Text.isWordChar))
  | fuel + 1, c :: rest => (c :: ·) <$> substitute env fuel rest

/-- Put the home directory in the place of a leading tilde. -/
def expandHome (env : Environment) (p : String) : String :=
  match p.toList, env.get? "HOME" with
  | ['~'], some home => home
  | '~' :: '/' :: rest, some home => home ++ String.ofList ('/' :: rest)
  | _, _ => p

/-- A path with variables and the home directory put in. Where a variable is missing, none is put in. -/
def expand (env : Environment) (p : String) : String :=
  let s := p.toList
  expandHome env (((substitute env (s.length + 1) s).map String.ofList).getD p)

/-- An expanded path as seen from `base`. -/
def resolve (env : Environment) (base p : String) : String := join base (expand env p)

end Path
end CorpusIndex
