import CorpusIndex.Text.CaseTables

/-!
# Lower-casing

`lowerChar` maps one character without looking at its neighbours. `lowercase` maps a whole text; it
differs in one place only, the capital sigma at the end of a word.
-/
namespace CorpusIndex.Text

/-- Lower-case form of one character. The dotted capital I is the only one with two characters. -/
def lowerChar (c : Char) : List Char :=
  if c.toNat < 128 then [c.toLower]
  else if c.toNat == 0x130 then ['i', '\u0307']
  else match lowerRuns.find? (·.covers c.toNat) with
    | some r => [Char.ofNat (Int.ofNat c.toNat + r.offset).toNat]
    | none => [c]

/-- Each character lower-cased on its own. -/
def lowerEach (s : List Char) : List Char := s.flatMap lowerChar

/-- The first character that is not case-ignorable is cased. -/
def meetsCased (s : List Char) : Bool :=
  match s.dropWhile caseIgnorableRanges.holds with
  | [] => false
  | c :: _ => casedRanges.holds c

/-- Lower-casing with the text before `s`, reversed, at hand. A capital sigma that ends a word
becomes the final form. -/
def lowerAfter (before : List Char) : List Char → List Char
  | [] => []
  | c :: rest =>
    (if c == 'Σ' then
      [if meetsCased before && !meetsCased rest then 'ς' else 'σ']
    else lowerChar c) ++ lowerAfter (c :: before) rest

/-- Lower-case form of a text. -/
def lowercase (s : List Char) : List Char := lowerAfter [] s

end CorpusIndex.Text
