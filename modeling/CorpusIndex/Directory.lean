import CorpusIndex.Files
import CorpusIndex.Node

/-!
# Documents of a directory

Every file whose name ends in `.txt`, at any depth, is a document. Its id is its path below the
directory.
-/
namespace CorpusIndex.Directory

/-- The name has something before its last extension, which is `txt`. -/
def isTextName (name : String) : Bool :=
  let s := name.toList
  4 < s.length && s.drop (s.length - 4) == ['.', 't', 'x', 't']

def slashes (s : String) : String := Text.replaceChar '\\' '/' s

/-- The document of a file below `root`. -/
def document (root : String) (names : List String) (bytes : List UInt8) : Document :=
  let path := String.intercalate "/" names
  let category := slashes (String.intercalate "/" names.dropLast)
  { id := slashes path
    text := Text.utf8Lossy bytes
    metadata := .ofList [
      ("file_path", .text (Path.join root path)),
      ("file_name", .text (names.getLast?.getD "")),
      ("category", .text (if category.isEmpty then "misc" else category))] }

/-- The documents below a directory in path order, at most `limit` of them. -/
def documents (files : FileTree) (cwd : List String) (root : String) (limit : Option Nat) :
    Except Failure (List Document) :=
  match (files.locate cwd root).toOption.filter files.isDirectory with
  | none => .error (.absent (.directory root))
  | some place =>
    let found := (files.filesBelow place).filter (fun f => isTextName (f.1.getLast?.getD ""))
    let found := match limit with
      | some n => found.take n
      | none => found
    .ok (found.map (fun f => document root f.1 f.2))

end CorpusIndex.Directory
