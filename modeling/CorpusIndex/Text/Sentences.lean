import CorpusIndex.Text.Blank

/-!
# Paragraphs, sentences and excerpts

A sentence ends with a full stop, an exclamation mark or a question mark that has a blank after it.
Paragraphs are separated by two line feeds.
-/
namespace CorpusIndex.Text

/-- Marks that can end a sentence. -/
def endsSentence (c : Char) : Bool := c == '.' || c == '!' || c == '?'

/-- The text cut after each end of a sentence; nothing is dropped. -/
def sentencePieces : List Char → List (List Char)
  | [] => [[]]
  | c :: rest =>
    if endsSentence c && rest.head?.any isBlank then [c] :: sentencePieces rest
    else match sentencePieces rest with
      | [] => [[c]]
      | piece :: more => (c :: piece) :: more

@[simp] theorem flatten_sentencePieces (s : List Char) : (sentencePieces s).flatten = s := by
  induction s with
  | nil => rfl
  | cons c rest ih =>
    unfold sentencePieces
    split
    · simp [ih]
    · split
      · next h => simp [h] at ih; simp [← ih]
      · next h => simp [h] at ih; simp [← ih]

/-- Sentences without the blanks around them; blank ones are left out. -/
def sentences (s : List Char) : List (List Char) :=
  ((sentencePieces s).map trim).filter (· ≠ [])

/-- The parts of a text between double line feeds. -/
def paragraphs : List Char → List (List Char)
  | [] => [[]]
  | '\n' :: '\n' :: rest => [] :: paragraphs rest
  | c :: rest =>
    match paragraphs rest with
    | [] => [[c]]
    | p :: more => (c :: p) :: more

/-- A text on one line, cut to at most `most` characters and then marked as cut. -/
def excerpt (most : Nat) (text : String) : String :=
  let flat := text.toList.map (fun c => if c == '\n' then ' ' else c)
  if flat.length ≤ most then String.ofList flat else String.ofList (flat.take most ++ ['…'])

/-- The first sentences of several texts, with spaces between them. -/
def leads (texts : List String) : String :=
  String.intercalate " " ((texts.filterMap (fun t => (sentences t.toList).head?)).map String.ofList)

end CorpusIndex.Text
