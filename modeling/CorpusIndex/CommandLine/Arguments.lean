import CorpusIndex.CommandLine.Failure
import CorpusIndex.Postprocess

/-!
# Arguments of a query

An index and a query text, with flags anywhere between and around them. Every flag takes the next
argument as its value, whatever it looks like.
-/
namespace CorpusIndex

structure QueryArguments where
  target : String
  query : String
  topK : Option Nat := none
  cutoff : Option Float32 := none
  words : WordFilter := {}
  expand : Option Nat := none
  expandMode : NeighbourMode := .next
  deriving DecidableEq, Repr

namespace QueryArguments

/-- What has been read so far. -/
structure Parsed where
  positional : List String := []
  topK : Option Nat := none
  cutoff : Option Float32 := none
  words : WordFilter := {}
  expand : Option Nat := none
  expandMode : NeighbourMode := .next

def wholeValue (flag value : String) : Except CommandFailure Nat :=
  (Decimal.readWhole value.toList).mapError (.notWhole flag)

def realValue (flag value : String) : Except CommandFailure Float32 :=
  ((Decimal.readReal value.toList).mapError (.notReal flag)).map (·.toFloat32)

/-- Flags. -/
def flags : List String :=
  ["--top-k", "--cutoff", "--require", "--exclude", "--expand", "--expand-mode"]

/-- A flag and its value. -/
def takeFlag (p : Parsed) (flag value : String) : Except CommandFailure Parsed :=
  match flag with
  | "--top-k" => do return { p with topK := some (← wholeValue flag value) }
  | "--cutoff" => do return { p with cutoff := some (← realValue flag value) }
  | "--require" => return { p with words := { p.words with required := p.words.required ++ [value] } }
  | "--exclude" => return { p with words := { p.words with excluded := p.words.excluded ++ [value] } }
  | "--expand" => do return { p with expand := some (← wholeValue flag value) }
  | _ => do
    return { p with expandMode := ← (NeighbourMode.ofName value).mapError .failure }

/-- Arguments from the left. -/
def parseFrom (p : Parsed) : List String → Except CommandFailure Parsed
  | [] => .ok p
  | arg :: rest =>
    if flags.contains arg then
      match rest with
      | [] => .error (.noValue arg)
      | value :: rest => do parseFrom (← takeFlag p arg value) rest
    else if ['-', '-'].isPrefixOf arg.toList then .error (.unknownOption arg)
    else parseFrom { p with positional := p.positional ++ [arg] } rest

/-- The first two arguments that are no flags are the index and the query; any others are ignored. -/
def parse (args : List String) : Except CommandFailure QueryArguments := do
  let p ← parseFrom {} args
  match p.positional with
  | target :: query :: _ =>
    return { target, query, topK := p.topK, cutoff := p.cutoff, words := p.words, expand := p.expand,
             expandMode := p.expandMode }
  | _ => throw .noQuery

/-- The stages the flags ask for. -/
def stages (a : QueryArguments) : List Postprocessor :=
  (if a.words = {} then [] else [.words a.words]) ++
  (a.cutoff.map Postprocessor.similarity).toList ++
  (a.expand.map (fun n => Postprocessor.neighbours n a.expandMode)).toList

end QueryArguments
end CorpusIndex
