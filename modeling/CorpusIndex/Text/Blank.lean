/-!
# Blank characters, trimming and words

Blank is the Unicode property `White_Space`. A word is a maximal run of characters that are not
blank.
-/
namespace CorpusIndex.Text

/-- Unicode white space. -/
def isBlank (c : Char) : Bool :=
  let n := c.toNat
  (9 ≤ n && n ≤ 13) || n == 0x20 || n == 0x85 || n == 0xA0 || n == 0x1680 ||
  (0x2000 ≤ n && n ≤ 0x200A) || n == 0x2028 || n == 0x2029 || n == 0x202F || n == 0x205F ||
  n == 0x3000

/-- The text without its longest start and end of characters satisfying `p`. -/
def trimBy (p : Char → Bool) (s : List Char) : List Char :=
  ((s.dropWhile p).reverse.dropWhile p).reverse

/-- The text without blanks at either end. -/
def trim (s : List Char) : List Char := trimBy isBlank s

/-- The pieces between the characters satisfying `p`: one piece more than there are such characters. -/
def pieces (p : Char → Bool) : List Char → List (List Char)
  | [] => [[]]
  | c :: cs =>
    if p c then [] :: pieces p cs
    else match pieces p cs with
      | [] => [[c]]
      | piece :: rest => (c :: piece) :: rest

@[simp] theorem pieces_nil (p : Char → Bool) : pieces p [] = [[]] := rfl

theorem pieces_ne_nil (p : Char → Bool) (s : List Char) : pieces p s ≠ [] := by
  cases s with
  | nil => simp
  | cons c cs =>
    unfold pieces
    split
    · simp
    · split <;> simp

/-- Maximal runs of characters satisfying `keep`, in order. -/
def runs (keep : Char → Bool) (s : List Char) : List (List Char) :=
  (pieces (fun c => !keep c) s).filter (· ≠ [])

theorem ne_nil_of_mem_runs {keep : Char → Bool} {s w : List Char} (h : w ∈ runs keep s) : w ≠ [] := by
  simpa using (List.mem_filter.1 h).2

/-- Words between blanks. -/
def words (s : List Char) : List (List Char) := runs (fun c => !isBlank c) s

/-- Texts with `sep` between neighbours. -/
def joinWith (sep : List Char) : List (List Char) → List Char
  | [] => []
  | [s] => s
  | s :: rest => s ++ sep ++ joinWith sep rest

/-- The words of a text with single spaces between them. -/
def squeeze (s : List Char) : List Char := joinWith [' '] (words s)

end CorpusIndex.Text
