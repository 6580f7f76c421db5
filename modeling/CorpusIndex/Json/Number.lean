import CorpusIndex.Decimal.Binary
import CorpusIndex.Decimal.Reading

/-!
# What a written number stands for

A literal without point and exponent is a whole number where it fits a 64-bit word, signed for
negative ones. Every other literal is a double-precision number: its leading digits up to the size of
a word, scaled by one power of ten. Literals beyond the greatest number stand for nothing.
-/
namespace CorpusIndex.Json

open Decimal (isDigit maxWord signedBound)

/-- A number as read. -/
inductive NumberValue where
  | whole (n : Int)
  | real (x : Float)

/-- The parts of a literal. -/
structure Literal where
  negative : Bool
  whole : List Char
  /-- digits after the point, if there is one -/
  fraction : Option (List Char)
  /-- sign and digits of the exponent, if there is one -/
  exponent : Option (Bool × List Char)

/-- Whether a text starts with a minus, and what follows that. -/
def minus (s : List Char) : Bool × List Char :=
  match s with
  | '-' :: rest => (true, rest)
  | _ => (false, s)

/-- Digits that start with a zero that is not the only one. -/
def hasLeadingZero (digits : List Char) : Bool :=
  match digits with
  | '0' :: _ :: _ => true
  | _ => false

/-- A point with the digits after it, if the text starts with one, and what follows. -/
def fraction? (s : List Char) : Option (Option (List Char) × List Char) :=
  match s with
  | '.' :: rest =>
    let digits := rest.takeWhile isDigit
    if digits.isEmpty then none else some (some digits, rest.dropWhile isDigit)
  | _ => some (none, s)

/-- Whether an exponent is negative, and what follows its sign. -/
def exponentSign (s : List Char) : Bool × List Char :=
  match s with
  | '-' :: rest => (true, rest)
  | '+' :: rest => (false, rest)
  | _ => (false, s)

/-- An exponent, if the text starts with one, and what follows. -/
def exponent? (s : List Char) : Option (Option (Bool × List Char) × List Char) :=
  match s with
  | c :: rest =>
    if c == 'e' || c == 'E' then
      let (down, rest) := exponentSign rest
      let digits := rest.takeWhile isDigit
      if digits.isEmpty then none else some (some (down, digits), rest.dropWhile isDigit)
    else some (none, s)
  | [] => some (none, [])

/-- A literal at the start of a text, and what follows it. -/
def literal? (s : List Char) : Option (Literal × List Char) :=
  let (negative, s) := minus s
  let whole := s.takeWhile isDigit
  if whole.isEmpty || hasLeadingZero whole then none
  else do
    let (fraction, s) ← fraction? (s.dropWhile isDigit)
    let (exponent, s) ← exponent? s
    return (⟨negative, whole, fraction, exponent⟩, s)

/-- Digits taken onto `n` while a word holds the result, and the number of digits left. -/
def absorb (n : Nat) : List Char → Nat × Nat
  | [] => (n, 0)
  | d :: ds =>
    let m := n * 10 + (d.toNat - '0'.toNat)
    if m ≤ maxWord then absorb m ds else (n, (d :: ds).length)

/-- The double nearest to a power of ten. -/
def powerOfTen (e : Nat) : Float := Float.ofScientific 1 false e

/-- `x * 10 ^ e` in double precision, by one multiplication or division where the power is in range;
smaller results come out of steps of `10 ^ -308`. -/
def scaled (x : Float) (e : Int) : (steps : Nat) → Option Float
  | 0 => some x
  | steps + 1 =>
    if e.natAbs ≤ 308 then
      if 0 ≤ e then
        let y := x * powerOfTen e.natAbs
        if y.isInf then none else some y
      else some (x / powerOfTen e.natAbs)
    else if x == 0.0 then some x
    else if 0 ≤ e then none
    else scaled (x / powerOfTen 308) (e + 308) steps

/-- The value of a literal. -/
def Literal.value? (l : Literal) : Option NumberValue :=
  let (n, dropped) := absorb 0 l.whole
  let real (n : Nat) (e : Int) : Option NumberValue :=
    (scaled n.toUInt64.toFloat e 4).map (fun x => .real (if l.negative then -x else x))
  match l.fraction, l.exponent with
  | none, none =>
    if dropped = 0 then
      if !l.negative then some (.whole n)
      else if n = 0 || n > signedBound then some (.real (-(n.toUInt64.toFloat)))
      else some (.whole (-n))
    else real n dropped
  | fraction, exponent =>
    let digits := fraction.getD []
    let (n, left) := absorb n digits
    let e : Int := dropped - (digits.length - left : Nat)
    match exponent with
    | none => real n e
    | some (down, es) =>
      let k := Decimal.ofDigits es
      if k > 0x7FFFFFFF then
        if n ≠ 0 && !down then none
        else some (.real (if l.negative then -0.0 else 0.0))
      else real n (if down then e - k else e + k)

/-- The value of a written number. -/
def numberValue? (s : List Char) : Option NumberValue :=
  match literal? s with
  | some (l, []) => l.value?
  | _ => none

/-- Single precision, rounding whole numbers directly and others from double precision. -/
def NumberValue.toFloat32 : NumberValue → Float32
  | .whole n =>
    let x := n.natAbs.toUInt64.toFloat32
    if n < 0 then -x else x
  | .real x => Decimal.nearestSingle x

/-- Double precision. -/
def NumberValue.toFloat : NumberValue → Float
  | .whole n =>
    let x := n.natAbs.toUInt64.toFloat
    if n < 0 then -x else x
  | .real x => x

end CorpusIndex.Json
