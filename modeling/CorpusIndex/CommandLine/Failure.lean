import CorpusIndex.Decimal.Reading
import CorpusIndex.Failure

/-!
# Failures of commands

Why a command ended early, and how that is reported: the outermost message, then its causes.
-/
namespace CorpusIndex

def usage : String :=
  "Usage: ragdex <ingest|query|inspect> [args...]\ningest [dir]\nquery " ++
  "<list|keyword|vector|tree|graph> \"<query>\" [--top-k N] [--cutoff X] [--require W]... " ++
  "[--exclude W]... [--expand N] [--expand-mode next|previous|both]\ninspect"

inductive CommandFailure where
  | failure (cause : Failure)
  | fault (cause : Fault)
  | loading (context : String) (cause : Failure)
  | noValue (flag : String)
  | notWhole (flag : String) (cause : Decimal.WholeError)
  | notReal (flag : String) (cause : Decimal.RealError)
  | unknownOption (flag : String)
  | noQuery
  | unknownIndex (name : String)
  | noDocuments (directory : String)
  deriving DecidableEq, Repr

namespace CommandFailure

/-- The message, then the messages of its causes. -/
def chain : CommandFailure → List String
  | .failure cause => cause.chain
  | .fault cause => cause.chain
  | .loading context cause => context :: cause.chain
  | .noValue flag => [flag ++ " requires a value"]
  | .notWhole flag cause => [flag ++ " requires a number", cause.message]
  | .notReal flag cause => [flag ++ " requires a number", cause.message]
  | .unknownOption flag => ["unknown option " ++ flag]
  | .noQuery => ["query needs an index and a query string\n" ++ usage]
  | .unknownIndex name => ["unknown index '" ++ name ++ "'\n" ++ usage]
  | .noDocuments directory => ["no .txt files under " ++ directory]

def message (f : CommandFailure) : String := f.chain.headD ""

/-- A cause with its lines indented, after its number if there are several causes. -/
def indented (several : Bool) (n : Nat) (cause : String) : String :=
  let lines := (cause.splitOn "\n")
  let first := if several then
      String.ofList (List.replicate (5 - (toString n).length) ' ') ++ toString n ++ ": "
    else "    "
  let next := if several then "\n       " else "\n    "
  first ++ String.intercalate next lines

/-- The report: the message, and below it the causes. -/
def report (f : CommandFailure) : String :=
  match f.chain with
  | [] => ""
  | [message] => message
  | message :: causes =>
    message ++ "\n\nCaused by:\n" ++ String.intercalate "\n"
      (causes.zipIdx.map (fun c => indented (causes.length > 1) c.2 c.1))

end CommandFailure
end CorpusIndex
