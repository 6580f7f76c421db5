import CorpusIndex.CommandLine.Run

/-!
# The program

Reads what a command needs into a tree of files, runs the command, and writes what has changed.
-/
namespace CorpusIndex

/-- The text of a place. -/
def placeText (place : List String) : String := "/" ++ String.intercalate "/" place

/-- The tree with what stands at a place. -/
def look (files : FileTree) (place : List String) : IO FileTree := do
  let path := (← IO.currentDir) / placeText place
  if ← path.isDir then return (files.makeDirectories place).toOption.getD files
  else if ← path.pathExists then
    let bytes ← IO.FS.readBinFile path
    let files := (files.makeDirectories place.dropLast).toOption.getD files
    return (files.write place bytes.toList).toOption.getD files
  else return files

/-- The tree with everything at and below a place. -/
partial def gather (files : FileTree) (place : List String) : IO FileTree := do
  let mut files ← look files place
  let path := (← IO.currentDir) / placeText place
  if ← path.isDir then
    for entry in ← path.readDir do
      files ← gather files (place ++ [entry.fileName])
  return files

/-- The tree with what stands on the way of a path and everything below its end. -/
def gatherAlong (s : Shell) (files : FileTree) (path : String) : IO FileTree := do
  let places := s.visited path
  let files ← places.foldlM look files
  match places.getLast? with
  | some place => gather files place
  | none => return files

/-- The variables of the environment. -/
def environment : IO Environment := do
  let bytes ← IO.FS.readBinFile "/proc/self/environ"
  let lines := (Text.utf8Lossy bytes.toList).splitOn "\x00"
  return .ofList (lines.filterMap fun line =>
    match line.splitOn "=" with
    | name :: value@(_ :: _) => some (name, String.intercalate "=" value)
    | _ => none)

/-- Write the entries of a tree that differ from those of another. -/
def store (before after : FileTree) : IO Unit := do
  for (place, entry) in after.entries.toList do
    if before.entry? place ≠ some entry then
      let path := placeText place
      match entry with
      | .directory => IO.FS.createDirAll path
      | .file bytes => IO.FS.writeBinFile path ⟨bytes.toArray⟩

/-- Run the program and give back its exit code. -/
def runProgram (args : List String) : IO UInt32 := do
  let cwd := Path.components (← IO.currentDir).toString
  let start : FileTree := (({} : FileTree).makeDirectories cwd).toOption.getD {}
  let shell : Shell := { files := start, cwd, env := ← environment }
  let files ← shell.configPlaces.foldlM look start
  let shell := { shell with files }
  let files ← (shell.workPaths args).foldlM (gatherAlong shell) files
  let outcome := run args { shell with files }
  store files outcome.files
  IO.print outcome.out
  IO.eprint outcome.err
  return outcome.code.toUInt32

end CorpusIndex

def main (args : List String) : IO UInt32 := CorpusIndex.runProgram args
