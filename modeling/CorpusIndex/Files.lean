import CorpusIndex.Bytes
import CorpusIndex.Failure
import CorpusIndex.Path

/-!
# Trees of files

Files and directories under the names that lead to them. Whatever has a place has a directory above it.
-/
namespace CorpusIndex

inductive FileEntry where
  | directory
  | file (bytes : List UInt8)
  deriving DecidableEq, Inhabited, Repr

structure FileTree where
  entries : SortedMap (List String) FileEntry := ∅
  deriving DecidableEq, Inhabited, Repr

namespace FileTree

def entry? (t : FileTree) (place : List String) : Option FileEntry :=
  if place.isEmpty then some .directory else t.entries.get? place

def isDirectory (t : FileTree) (place : List String) : Bool := t.entry? place == some .directory

def isFile (t : FileTree) (place : List String) : Bool :=
  match t.entry? place with
  | some (.file _) => true
  | _ => false

/-- A file lies on the way to a place. -/
def isBlocked (t : FileTree) (place : List String) : Bool :=
  (List.range place.length).any (fun n => t.isFile (place.take n))

def read (t : FileTree) (place : List String) : Except FileFault (List UInt8) :=
  match t.entry? place with
  | some (.file bytes) => .ok bytes
  | some .directory => .error .isDirectory
  | none => .error (if t.isBlocked place then .notDirectory else .missing)

def readText (t : FileTree) (place : List String) : Except FileFault String := do
  match Text.utf8? (← t.read place) with
  | some s => return s
  | none => throw .notText

/-- Make a directory and those above it. -/
def makeDirectories (t : FileTree) (place : List String) : Except FileFault FileTree :=
  if t.isBlocked place then .error .notDirectory
  else if t.isFile place then .error .exists
  else
    .ok ⟨(List.range place.length).foldl
      (fun m n => m.insert (place.take (n + 1)) .directory) t.entries⟩

/-- Write a file into a directory that is there. -/
def write (t : FileTree) (place : List String) (bytes : List UInt8) : Except FileFault FileTree :=
  if t.isDirectory place then .error .isDirectory
  else if t.isDirectory place.dropLast then .ok ⟨t.entries.insert place (.file bytes)⟩
  else .error (if t.isBlocked place then .notDirectory else .missing)

def writeText (t : FileTree) (place : List String) (s : String) : Except FileFault FileTree :=
  t.write place s.toUTF8.toList

/-- Write a file and make the directories above it. -/
def place (t : FileTree) (place : List String) (bytes : List UInt8) : Except FileFault FileTree := do
  (← t.makeDirectories place.dropLast).write place bytes

/-- What is wrong with a place that is taken for a directory. -/
def absence (t : FileTree) (place : List String) : FileFault :=
  if t.isFile place then .notDirectory else .missing

/-- Follow names from a place. Whatever a name is looked up in has to be a directory that is there. -/
def walk (t : FileTree) (place : List String) : List String → Except FileFault (List String)
  | [] => .ok place
  | name :: rest =>
    if t.isDirectory place then t.walk (Path.step place name) rest else .error (t.absence place)

/-- The place a path leads to from a directory. There may be nothing at the place. -/
def locate (t : FileTree) (directory : List String) (path : String) :
    Except FileFault (List String) :=
  if path.isEmpty then .error .missing
  else t.walk (Path.start directory path)
    (Path.names path ++ if Path.leadsInto path then ["."] else [])

/-- The text of the file a path leads to. -/
def textAt (t : FileTree) (directory : List String) (path : String) : Except FileFault String := do
  t.readText (← t.locate directory path)

/-- Write a text to the file a path leads to. -/
def writeAt (t : FileTree) (directory : List String) (path s : String) :
    Except FileFault FileTree := do
  t.writeText (← t.locate directory path) s

/-- Names lead to a directory. -/
def leadsToDirectory (t : FileTree) (place : List String) (names : List String) : Bool :=
  match t.walk place names with
  | .ok place => t.isDirectory place
  | .error _ => false

/-- Make the directory of the last name. -/
def makeLast (t : FileTree) (place : List String) (names : List String) :
    Except FileFault FileTree := do
  match names.getLast? with
  | none => throw .exists
  | some last =>
    let parent ← t.walk place names.dropLast
    let made := Path.step parent last
    if !t.isDirectory parent then throw (t.absence parent)
    else if last = "." || last = ".." || (t.entry? made).isSome then throw .exists
    else return ⟨t.entries.insert made .directory⟩

/-- Make the directory of the last name, unless it is there. -/
def settleLast (t : FileTree) (place : List String) (names : List String) :
    Except FileFault FileTree :=
  match t.makeLast place names with
  | .ok t => .ok t
  | .error e => if t.leadsToDirectory place names then .ok t else .error e

/-- Make the directory of the last name, after those above it where something on the way is missing. -/
def makeAlong (t : FileTree) (place : List String) (names : List String) :
    Except FileFault FileTree :=
  match t.settleLast place names with
  | .error .missing =>
    if _h : names = [] then .error .missing
    else do (← t.makeAlong place (Path.above names)).settleLast place names
  | r => r
termination_by names.length
decreasing_by exact Path.length_above_lt _h

/-- Make the directory a path leads to. -/
def makeDirectoriesAt (t : FileTree) (directory : List String) (path : String) :
    Except FileFault FileTree := t.makeAlong (Path.start directory path) (Path.names path)

/-- Files below a directory, each under the names that lead there, in the order of those names. -/
def filesBelow (t : FileTree) (directory : List String) : List (List String × List UInt8) :=
  t.entries.toList.filterMap fun (place, entry) =>
    match entry with
    | .file bytes =>
      if directory.isPrefixOf place && directory.length < place.length then
        some (place.drop directory.length, bytes)
      else none
    | .directory => none

end FileTree
end CorpusIndex
