/-!
# Reading numbers

Whole numbers within a word and decimal fractions with an optional exponent. A decimal is rounded
once, to the nearest number of its format.
-/
namespace CorpusIndex.Decimal

/-- The value of a text of decimal digits. -/
def ofDigits (ds : List Char) : Nat := ds.foldl (fun n d => n * 10 + (d.toNat - '0'.toNat)) 0

def isDigit (c : Char) : Bool := '0' ≤ c && c ≤ '9'

/-- The greatest number of a 64-bit word. -/
def maxWord : Nat := 0xFFFFFFFFFFFFFFFF

/-- Signed 64-bit words are the numbers from `-signedBound` up to the one before `signedBound`. -/
def signedBound : Nat := 0x8000000000000000

/-- Why a text is no whole number. -/
inductive WholeError where
  | empty
  | invalidDigit
  | tooLarge
  deriving DecidableEq, Repr

def WholeError.message : WholeError → String
  | .empty => "cannot parse integer from empty string"
  | .invalidDigit => "invalid digit found in string"
  | .tooLarge => "number too large to fit in target type"

/-- A whole number up to `maxWord`, with an optional plus sign. -/
def readWhole (s : List Char) : Except WholeError Nat :=
  let ds := match s with
    | '+' :: rest => if rest.isEmpty then s else rest
    | _ => s
  if s.isEmpty then .error .empty
  else if !ds.all isDigit then .error .invalidDigit
  else if ofDigits ds ≤ maxWord then .ok (ofDigits ds) else .error .tooLarge

def readWhole? (s : List Char) : Option Nat := (readWhole s).toOption

/-- A whole number with an optional sign, within a signed word. -/
def readSigned? (s : List Char) : Option Int :=
  let (negative, ds) := match s with
    | '-' :: rest => (true, rest)
    | '+' :: rest => (false, rest)
    | _ => (false, s)
  if ds.isEmpty || !ds.all isDigit then none
  else
    let n := ofDigits ds
    if negative then if n ≤ signedBound then some (-(n : Int)) else none
    else if n < signedBound then some n else none

/-- A signed decimal `± digits * 10 ^ exponent`, an infinity, or not a number. -/
inductive Reading where
  | notANumber
  | infinite (negative : Bool)
  | decimal (negative : Bool) (digits : Nat) (exponent : Int)
  deriving DecidableEq, Repr

/-- Why a text is no number. -/
inductive RealError where
  | empty
  | invalid
  deriving DecidableEq, Repr

def RealError.message : RealError → String
  | .empty => "cannot parse float from empty string"
  | .invalid => "invalid float literal"

/-- An exponent: nothing, or a mark, an optional sign and digits. -/
def readExponent? : List Char → Option Int
  | [] => some 0
  | c :: rest =>
    if c == 'e' || c == 'E' then
      let (negative, ds) := match rest with
        | '-' :: ds => (true, ds)
        | '+' :: ds => (false, ds)
        | ds => (false, ds)
      if ds.isEmpty || !ds.all isDigit then none
      else some (if negative then -(ofDigits ds : Int) else ofDigits ds)
    else none

/-- Digits with an optional point and exponent; one digit at least stands before the exponent. -/
def readUnsigned? (negative : Bool) (s : List Char) : Option Reading :=
  let whole := s.takeWhile isDigit
  let rest := s.dropWhile isDigit
  let (fraction, rest) := match rest with
    | '.' :: r => (r.takeWhile isDigit, r.dropWhile isDigit)
    | r => ([], r)
  if whole.isEmpty && fraction.isEmpty then none
  else (readExponent? rest).map (fun e =>
    .decimal negative (ofDigits (whole ++ fraction)) (e - fraction.length))

/-- A real number in plain or exponent form, or a name of an infinity or of no number. -/
def readReal (s : List Char) : Except RealError Reading :=
  let (negative, body) := match s with
    | '-' :: rest => (true, rest)
    | '+' :: rest => (false, rest)
    | _ => (false, s)
  let name := body.map Char.toLower
  if s.isEmpty then .error .empty
  else if name == ['n', 'a', 'n'] then .ok .notANumber
  else if name == ['i', 'n', 'f'] || name == "infinity".toList then .ok (.infinite negative)
  else match readUnsigned? negative body with
    | some r => .ok r
    | none => .error .invalid

/-- Exponents beyond this bound make any number with fewer digits zero or infinite. -/
def exponentBound (digits : Nat) : Nat := 400 + (Nat.toDigits 10 digits).length

/-- The nearest single-precision number. -/
def Reading.toFloat32 : Reading → Float32
  | .notANumber => 0.0 / 0.0
  | .infinite negative => if negative then -1.0 / 0.0 else 1.0 / 0.0
  | .decimal negative digits exponent =>
    let bound := exponentBound digits
    let x : Float32 :=
      if digits = 0 || exponent < -(bound : Int) then 0.0
      else if exponent > (bound : Int) then 1.0 / 0.0
      else Float32.ofScientific digits (decide (exponent < 0)) exponent.natAbs
    if negative then -x else x

/-- The nearest double-precision number. -/
def Reading.toFloat : Reading → Float
  | .notANumber => 0.0 / 0.0
  | .infinite negative => if negative then -1.0 / 0.0 else 1.0 / 0.0
  | .decimal negative digits exponent =>
    let bound := exponentBound digits
    let x : Float :=
      if digits = 0 || exponent < -(bound : Int) then 0.0
      else if exponent > (bound : Int) then 1.0 / 0.0
      else Float.ofScientific digits (decide (exponent < 0)) exponent.natAbs
    if negative then -x else x

end CorpusIndex.Decimal
