/-!
# Finding and replacing a pattern

Occurrences are taken from the left and do not overlap.
-/
namespace CorpusIndex.Text

/-- What follows `pattern` at the start of the text. -/
def afterPrefix? : (pattern text : List Char) → Option (List Char)
  | [], s => some s
  | _ :: _, [] => none
  | p :: ps, c :: cs => if p == c then afterPrefix? ps cs else none

/-- What follows the first occurrence of `pattern`. -/
def afterFirst? (pattern : List Char) : List Char → Option (List Char)
  | [] => afterPrefix? pattern []
  | c :: cs => match afterPrefix? pattern (c :: cs) with
    | some rest => some rest
    | none => afterFirst? pattern cs

/-- Replacement with `skip` characters of an occurrence still to be passed over. -/
def replaceFrom (pattern value : List Char) : (skip : Nat) → List Char → List Char
  | _, [] => []
  | skip + 1, _ :: cs => replaceFrom pattern value skip cs
  | 0, c :: cs =>
    if (afterPrefix? pattern (c :: cs)).isSome then
      value ++ replaceFrom pattern value (pattern.length - 1) cs
    else c :: replaceFrom pattern value 0 cs

/-- Every occurrence of a non-empty `pattern` replaced by `value`. -/
def replaceAll (pattern value s : List Char) : List Char := replaceFrom pattern value 0 s

/-- Every occurrence of one character replaced by another. -/
def replaceChar (c d : Char) (s : String) : String :=
  String.ofList (s.toList.map (fun x => if x == c then d else x))

end CorpusIndex.Text
