import CorpusIndex.Collaborator
import CorpusIndex.Text.Sentences

/-!
# Summaries

Condensing the texts of several nodes into one.
-/
namespace CorpusIndex

variable {σ : Type}

/-- Turns the texts of siblings into the text of their parent. -/
structure Summarizer (σ : Type) where
  summarize : List String → Action σ String

namespace Summarizer

/-- The first sentence of every text. -/
def leads : Summarizer σ := ⟨fun texts => pure (Text.leads texts)⟩

def template : String :=
  "Write a summary of the following. Try to use only the information provided. Try to include as many " ++
  "key details as possible.\n\n\x7bcontext_str\x7d\n\nSUMMARY:\n"

/-- A language model's summary of the texts, with empty lines between them. -/
def ofModel (model : LanguageModel σ) : Summarizer σ := ⟨fun texts => do
  let reply ← (model.complete
    ⟨template, [("context_str", String.intercalate "\n\n" texts)]⟩).external
  return String.ofList (Text.trim reply.toList)⟩

end Summarizer
end CorpusIndex
