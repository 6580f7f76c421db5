import CorpusIndex.Collaborator
import CorpusIndex.Decimal.Reading
import CorpusIndex.Embedding.Similarity
import CorpusIndex.Text.Blank

/-!
# Choosing among siblings

A selector picks places in a list of nodes, best first, by asking a language model for their numbers or
by comparing embeddings.
-/
namespace CorpusIndex

variable {σ : Type}

/-- Picks at most `most` places, with their scores where there are any. -/
structure Selector (σ : Type) where
  select : Query → (candidates : List Node) → (most : Nat) → Action σ (List (Nat × Option Float32))

namespace Selector

def queryTemplate : String :=
  "Some choices are given below. It is provided in a numbered list (1 to \x7bnum_chunks\x7d), where " ++
  "each item in the list corresponds to a summary.\n---------------------\n\x7bcontext_list\x7d\n" ++
  "---------------------\nUsing only the choices above and not prior knowledge, return the top choices " ++
  "(no more than \x7bbranching_factor\x7d, ranked by most relevant to least) that are most relevant to " ++
  "the question: '\x7bquery_str\x7d'\nProvide choices in the following format: 'ANSWER: <numbers>' and " ++
  "explain why these summaries were selected in relation to the question.\n"

def insertTemplate : String :=
  "Context information is below. It is provided in a numbered list (1 to \x7bnum_chunks\x7d), where " ++
  "each item in the list corresponds to a summary.\n---------------------\n\x7bcontext_list\x7d\n" ++
  "---------------------\nGiven the context information, here is a new piece of information: " ++
  "\x7bquery_str\x7d\nAnswer with the number corresponding to the summary that should be updated. The " ++
  "answer should be the number corresponding to the summary that is most relevant to the question. " ++
  "Return no more than \x7bbranching_factor\x7d number.\n"

/-- The numbers in a reply, in order; runs of digits beyond a word are passed over. -/
def numbers (reply : String) : List Nat :=
  (Text.runs Decimal.isDigit reply.toList).filterMap Decimal.readWhole?

/-- The candidates as a numbered list, each on one line. -/
def numbered (candidates : List Node) : String :=
  String.intercalate "\n\n" (candidates.zipIdx.map (fun c =>
    "(" ++ toString (c.2 + 1) ++ ") " ++ Text.replaceChar '\n' ' ' c.1.text))

/-- Numbers between 1 and `count` as places counted from zero, each once, until there are `most`. -/
def picks (count most : Nat) : (taken : List Nat) → List Nat → List Nat
  | taken, [] => taken
  | taken, n :: rest =>
    if n = 0 || n > count || taken.contains (n - 1) then picks count most taken rest
    else
      let taken := taken ++ [n - 1]
      if taken.length = most then taken else picks count most taken rest

/-- Ask a language model for the numbers of the best candidates. -/
def ofModel (model : LanguageModel σ) (template : String) : Selector σ := ⟨fun query candidates most => do
  if candidates.isEmpty then return []
  let reply ← (model.complete ⟨template, [
    ("num_chunks", toString candidates.length),
    ("context_list", numbered candidates),
    ("query_str", query.text),
    ("branching_factor", toString most)]⟩).external
  return (picks candidates.length most [] (numbers reply)).map (fun i => (i, none))⟩

/-- Which nodes answer a query. -/
def forQuery (model : LanguageModel σ) : Selector σ := ofModel model queryTemplate

/-- Where new content belongs. -/
def forInsertion (model : LanguageModel σ) : Selector σ := ofModel model insertTemplate

/-- The candidates nearest to the query. -/
def byEmbedding (e : Embedder σ) : Selector σ := ⟨fun query candidates most => do
  if candidates.isEmpty then return []
  let v ← query.embed e
  let embeddings ← e.embedNodes candidates
  let ranked := nearest v (embeddings.zipIdx.map (fun c => (c.2, c.1))) most none
  return ranked.map (fun r => (r.1, some r.2))⟩

end Selector
end CorpusIndex
