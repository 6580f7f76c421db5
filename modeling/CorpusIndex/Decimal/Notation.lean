import CorpusIndex.Decimal.Shortest

/-!
# Writing decimals

How shortest digits are laid out: with a point among them or with an exponent, and with a fixed
number of places.
-/
namespace CorpusIndex.Decimal

/-- Decimal digits of a number. -/
def digitText (n : Nat) : List Char := Nat.toDigits 10 n

/-- Layout of shortest digits. -/
structure Notation where
  /-- leading exponents written with a point instead of an exponent -/
  positional : Int → Bool
  /-- whole numbers keep a point and a zero -/
  wholeMark : Bool
  tie : Tie

/-- Digits with the point `exponent + 1` places after their start. -/
def positionalText (wholeMark : Bool) (digits : List Char) (exponent : Int) : List Char :=
  if exponent < 0 then
    '0' :: '.' :: List.replicate (-exponent - 1).toNat '0' ++ digits
  else
    let whole := exponent.toNat + 1
    if digits.length ≤ whole then
      digits ++ List.replicate (whole - digits.length) '0' ++ if wholeMark then ['.', '0'] else []
    else digits.take whole ++ '.' :: digits.drop whole

/-- One digit before the point and a signed exponent. -/
def exponentText (digits : List Char) (exponent : Int) : List Char :=
  let fraction := digits.drop 1
  digits.take 1 ++ (if fraction.isEmpty then [] else '.' :: fraction) ++
    'e' :: (if exponent < 0 then '-' else '+') :: digitText exponent.natAbs

def signText (negative : Bool) : List Char := if negative then ['-'] else []

/-- A positive decimal under a notation. -/
def Notation.text (n : Notation) (d : Numeral) : List Char :=
  let digits := digitText d.digits
  let leading := d.exponent + (digits.length - 1 : Nat)
  if n.positional leading then positionalText n.wholeMark digits leading
  else exponentText digits leading

/-- A number under a notation; `none` for infinities and for what is not a number. -/
def Notation.write? (n : Notation) : Parts → Option (List Char)
  | .notANumber => none
  | .infinite _ => none
  | .zero negative => some (signText negative ++ if n.wholeMark then ['0', '.', '0'] else ['0'])
  | .finite negative f => some (signText negative ++ n.text (f.shortest n.tie))

/-- Names of the values without digits. -/
def Notation.write (n : Notation) (p : Parts) : List Char :=
  match n.write? p, p with
  | some text, _ => text
  | none, .infinite true => ['-', 'i', 'n', 'f']
  | none, .infinite false => ['i', 'n', 'f']
  | none, _ => ['N', 'a', 'N']

/-- Plain text never has an exponent and writes whole numbers without a point. -/
def plain : Notation := ⟨fun _ => true, false, .up⟩

/-- The quotient rounded to the nearest integer, a half to the even neighbour. -/
def roundedQuotient (num den : Nat) : Nat :=
  let q := num / den
  let r := num % den
  if 2 * r < den then q else if 2 * r = den then q + q % 2 else q + 1

/-- A number with exactly `places` digits after the point. -/
def fixed (places : Nat) (p : Parts) : List Char :=
  match p with
  | .notANumber | .infinite _ => plain.write p
  | .zero negative => signText negative ++ body 0
  | .finite negative f =>
    signText negative ++ body
      (roundedQuotient (f.mantissa * twoPow f.exponent.toNat * tenPow places)
        (twoPow (-f.exponent).toNat))
where
  body (scaled : Nat) : List Char :=
    let digits := digitText scaled
    let padded := List.replicate (places + 1 - digits.length) '0' ++ digits
    let whole := padded.length - places
    padded.take whole ++ if places = 0 then [] else '.' :: padded.drop whole

end CorpusIndex.Decimal
