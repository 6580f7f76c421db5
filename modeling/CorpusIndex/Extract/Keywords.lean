import CorpusIndex.Collaborator
import CorpusIndex.Text.Alphanumeric
import CorpusIndex.Text.Blank
import CorpusIndex.Text.LetterCase

/-!
# Keywords

Keywords are either the most frequent words of a text or what a language model names. A model answers
with a list after the mark `KEYWORDS:`; a keyword of several words counts its parts as keywords too.
-/
namespace CorpusIndex.Keywords

open Text

/-- Words that never stand alone as keywords. -/
def stopWords : List String := [
  "a", "an", "and", "are", "as", "at", "be", "by", "for", "from", "has", "he", "in", "is", "it",
  "its", "of", "on", "that", "the", "to", "was", "will", "with", "or", "but", "not", "this",
  "these", "they", "them", "their", "there", "then", "than", "so", "if", "when", "where", "why",
  "how", "what", "which", "who", "whom", "whose", "can", "could", "should", "would", "may",
  "might", "must", "shall", "do", "does", "did", "have", "had", "having"]

def isStopWord (w : String) : Bool := stopWords.contains w

/-- Alphanumeric runs, each character lower-cased, without stop words. -/
def tokens (text : String) : List String :=
  ((runs isAlphanumeric text.toList).map (fun w => String.ofList (lowerEach w))).filter
    (fun w => !isStopWord w)

/-- The most frequent tokens; of equally frequent ones the first to occur comes first. -/
def frequent (text : String) (most : Nat) : List String :=
  let all := tokens text
  ((all.eraseDups.map (fun w => (w, all.count w))).mergeSort (fun a b => b.2 ≤ a.2)).take most
    |>.map (·.1)

/-- The extractor that needs no collaborator. -/
def frequentExtractor {σ : Type} : KeywordExtractor σ := ⟨fun text most => pure (frequent text most)⟩

def template : String :=
  "Some text is provided below. Given the text, extract up to \x7bmax_keywords\x7d keywords from the " ++
  "text. Avoid stopwords.\n---------------------\n\x7btext\x7d\n---------------------\nProvide keywords " ++
  "in the following comma-separated format: 'KEYWORDS: <keywords>'\n"

/-- A keyword added to a list, unless it is empty or there already. -/
def addKeyword (keywords : List String) (w : List Char) : List String :=
  let k := String.ofList w
  if w.isEmpty || keywords.contains k then keywords else keywords ++ [k]

/-- Marks that are taken off the ends of a keyword. -/
def isQuoteMark (c : Char) : Bool := c == '\'' || c == '"' || c == '.'

/-- One item of a reply: the keyword, and its parts if there are several. -/
def addItem (keywords : List String) (item : List Char) : List String :=
  let keyword := lowercase (trimBy isQuoteMark (trim item))
  let parts := words keyword
  let keywords := addKeyword keywords keyword
  if parts.length > 1 then
    (parts.filter (fun p => !isStopWord (String.ofList p))).foldl addKeyword keywords
  else keywords

/-- Keywords of a reply, from its first `most` items. -/
def ofReply (reply : String) (most : Nat) : List String :=
  let body := (afterFirst? "KEYWORDS:".toList reply.toList).getD reply.toList
  ((pieces (· == ',') body).take most).foldl addItem []

/-- The extractor that asks a language model. -/
def modelExtractor {σ : Type} (model : LanguageModel σ) : KeywordExtractor σ := ⟨fun text most => do
  let reply ← model.complete ⟨template, [("max_keywords", toString most), ("text", text)]⟩
  return ofReply reply most⟩

end CorpusIndex.Keywords
