import CorpusIndex.Collaborator
import CorpusIndex.Text.Blank

/-!
# Facts from a language model

A reply states one fact a line, as subject, relation and object in round brackets. Other lines are
passed over.
-/
namespace CorpusIndex.Triplets

open Text

def template : String :=
  "Some text is provided below. Given the text, extract up to \x7bmax_triplets\x7d knowledge triplets " ++
  "in the form of (subject, predicate, object). Avoid stopwords.\n---------------------\n\x7btext\x7d\n" ++
  "---------------------\nTriplets:\n"

/-- What stands between round brackets at the two ends of a text. -/
def bracketed? (s : List Char) : Option (List Char) :=
  match s with
  | '(' :: rest => if rest.getLast? = some ')' then some rest.dropLast else none
  | _ => none

/-- The fact on a line. -/
def ofLine? (line : List Char) : Option Triplet :=
  match (bracketed? (trim line)).map (fun inner => (pieces (· == ',') inner).map trim) with
  | some [s, r, o] =>
    if s.isEmpty || r.isEmpty || o.isEmpty then none
    else some ⟨String.ofList s, String.ofList r, String.ofList o⟩
  | _ => none

/-- The facts of a reply, in order. -/
def ofReply (reply : String) : List Triplet := (pieces (· == '\n') reply.toList).filterMap ofLine?

/-- The extractor that asks a language model. -/
def modelExtractor {σ : Type} (model : LanguageModel σ) : TripletExtractor σ := ⟨fun text most => do
  let reply ← model.complete ⟨template, [("max_triplets", toString most), ("text", text)]⟩
  return (ofReply reply).take most⟩

end CorpusIndex.Triplets
