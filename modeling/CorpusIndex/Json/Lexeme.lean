/-!
# Parts of written values

Blanks, escapes and strings. A string stands for characters, so its surrogates have to come in pairs;
where only its end is looked for, the escapes have to be written properly and nothing else.
-/
namespace CorpusIndex.Json

/-- The text after blanks. -/
def skipBlanks (s : List Char) : List Char :=
  s.dropWhile (fun c => c == ' ' || c == '\n' || c == '\t' || c == '\r')

/-- The value of a hexadecimal digit. -/
def hexValue? (c : Char) : Option Nat :=
  if '0' ≤ c && c ≤ '9' then some (c.toNat - '0'.toNat)
  else if 'a' ≤ c && c ≤ 'f' then some (c.toNat - 'a'.toNat + 10)
  else if 'A' ≤ c && c ≤ 'F' then some (c.toNat - 'A'.toNat + 10)
  else none

/-- The value of four hexadecimal digits. -/
def hexWord? (a b c d : Char) : Option Nat := do
  return (← hexValue? a) * 4096 + (← hexValue? b) * 256 + (← hexValue? c) * 16 + (← hexValue? d)

/-- The meaning of a letter after a backslash, except `u`. -/
def simpleEscape? (c : Char) : Option Char :=
  match c with
  | '"' => some '"'
  | '\\' => some '\\'
  | '/' => some '/'
  | 'b' => some (Char.ofNat 8)
  | 'f' => some (Char.ofNat 12)
  | 'n' => some '\n'
  | 'r' => some '\r'
  | 't' => some '\t'
  | _ => none

/-- The rest of a string after its opening quote; `seen` is reversed. Surrogates come in pairs. -/
def stringRest (seen : List Char) : List Char → Option (String × List Char)
  | [] => none
  | '"' :: rest => some (String.ofList seen.reverse, rest)
  | '\\' :: 'u' :: a :: b :: c :: d :: rest =>
    match hexWord? a b c d with
    | none => none
    | some n =>
      if 0xD800 ≤ n && n ≤ 0xDBFF then
        match rest with
        | '\\' :: 'u' :: a :: b :: c :: d :: rest =>
          match hexWord? a b c d with
          | none => none
          | some m =>
            if 0xDC00 ≤ m && m ≤ 0xDFFF then
              stringRest (Char.ofNat (0x10000 + (n - 0xD800) * 0x400 + (m - 0xDC00)) :: seen) rest
            else none
        | _ => none
      else if 0xDC00 ≤ n && n ≤ 0xDFFF then none
      else stringRest (Char.ofNat n :: seen) rest
  | '\\' :: c :: rest =>
    match simpleEscape? c with
    | none => none
    | some d => stringRest (d :: seen) rest
  | c :: rest => if c.toNat < 32 || c == '\\' then none else stringRest (c :: seen) rest

/-- The text after a string whose opening quote is passed. -/
def skipString : List Char → Option (List Char)
  | [] => none
  | '"' :: rest => some rest
  | '\\' :: 'u' :: a :: b :: c :: d :: rest =>
    if (hexWord? a b c d).isSome then skipString rest else none
  | '\\' :: c :: rest => if (simpleEscape? c).isSome then skipString rest else none
  | c :: rest => if c.toNat < 32 || c == '\\' then none else skipString rest

end CorpusIndex.Json
