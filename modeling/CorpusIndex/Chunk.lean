import CorpusIndex.Node
import CorpusIndex.Settings
import CorpusIndex.Text.Sentences

/-!
# Cutting documents into chunks

Paragraphs never share a chunk. Within a paragraph whole sentences are packed as long as the token
estimate stays within the budget, and a sentence beyond the budget is cut into overlapping windows of
words.
-/
namespace CorpusIndex

open Text

/-- How texts are cut. -/
structure Chunker where
  /-- greatest token estimate of a chunk -/
  budget : Nat
  /-- words in a window -/
  window : Nat
  /-- words that a window repeats of the one before -/
  overlap : Nat
  /-- token estimate of a number of words -/
  estimate : Nat → Nat
  overlap_lt_window : overlap < window

/-- A token for three quarters of a word, in single precision. -/
def tokenEstimate (words : Nat) : Nat := (words.toUInt64.toFloat32 / 0.75).toUInt64.toNat

/-- Token estimate of a text. -/
def countTokens (s : List Char) : Nat := tokenEstimate (words s).length

namespace Chunker

/-- Three quarters of a budget, one word at least. -/
def windowOf (budget : Nat) : Nat := max (budget.toUInt64.toFloat32 * 0.75).toUInt64.toNat 1

/-- A share of a window, always less than all of it. -/
def overlapOf (window : Nat) (share : Float32) : Nat :=
  min (window.toUInt64.toFloat32 * share).toUInt64.toNat (window - 1)

theorem windowOf_pos (budget : Nat) : 0 < windowOf budget := by unfold windowOf; omega

theorem overlapOf_lt {window : Nat} (h : 0 < window) (share : Float32) :
    overlapOf window share < window := by unfold overlapOf; omega

def ofSettings (s : ChunkingSettings) : Except Failure Chunker :=
  if s.maxTokens = 0 then .error (.invalid .zeroTokenBudget)
  else if !Settings.overlapInRange s.overlap then .error (.invalid .overlapOutOfRange)
  else .ok {
    budget := s.maxTokens
    window := windowOf s.maxTokens
    overlap := overlapOf (windowOf s.maxTokens) s.overlap
    estimate := tokenEstimate
    overlap_lt_window := overlapOf_lt (windowOf_pos _) _ }

/-- The estimate of a text is within the budget. -/
def fits (c : Chunker) (s : List Char) : Bool := c.estimate (words s).length ≤ c.budget

/-- Windows of a list of words; the last one reaches the end. -/
def windows (c : Chunker) (ws : List (List Char)) : List (List (List Char)) :=
  if h : c.window < ws.length then
    have : ws.length - (c.window - c.overlap) < ws.length := by
      have := c.overlap_lt_window
      omega
    ws.take c.window :: c.windows (ws.drop (c.window - c.overlap))
  else if ws.isEmpty then [] else [ws]
termination_by ws.length
decreasing_by simpa using this

/-- A sentence beyond the budget as windows of its words. -/
def cut (c : Chunker) (sentence : List Char) : List (List Char) :=
  (c.windows (words sentence)).map (joinWith [' '])

/-- Sentences packed into chunks; `current` is the chunk being filled. -/
def pack (c : Chunker) : (current : List Char) → List (List Char) → List (List Char)
  | current, [] => if current.isEmpty then [] else [current]
  | current, s :: rest =>
    let candidate := if current.isEmpty then s else current ++ ' ' :: s
    if c.fits candidate then c.pack candidate rest
    else
      let done := if current.isEmpty then [] else [current]
      if c.fits s then done ++ c.pack s rest else done ++ c.cut s ++ c.pack [] rest

/-- The chunks of a paragraph. -/
def paragraphChunks (c : Chunker) (paragraph : List Char) : List (List Char) :=
  let p := trim paragraph
  if p.isEmpty then []
  else if c.fits p then [squeeze p]
  else c.pack [] (sentences p)

/-- The chunks of a text. -/
def chunkText (c : Chunker) (content : List Char) : List (List Char) :=
  (paragraphs content).flatMap c.paragraphChunks

/-- The node of chunk `i` out of `n`. -/
def chunkNode (doc : Document) (n i : Nat) (text : String) : Node :=
  let node : Node := { id := chunkId doc.id i, text, metadata := doc.metadata, document := some doc.id }
  let node := node.setLink .source doc.id
  let node := if i = 0 then node else node.setLink .previous (chunkId doc.id (i - 1))
  if i + 1 < n then node.setLink .next (chunkId doc.id (i + 1)) else node

/-- The nodes of a document, linked to their neighbours. -/
def nodesOf (c : Chunker) (doc : Document) : List Node :=
  let texts := c.chunkText doc.text.toList
  texts.zipIdx.map (fun t => chunkNode doc texts.length t.2 (String.ofList t.1))

/-- The nodes of several documents, in order. -/
def nodesOfAll (c : Chunker) (docs : List Document) : List Node := docs.flatMap c.nodesOf

end Chunker
end CorpusIndex
