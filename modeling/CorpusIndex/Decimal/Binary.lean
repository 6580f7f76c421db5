/-!
# Binary fractions behind floating-point numbers

A finite number is read off its bits as `mantissa * 2 ^ exponent`. Single and double precision differ
in the widths of the two fields only.
-/
namespace CorpusIndex.Decimal

/-- The `n`-th power of two. -/
def twoPow (n : Nat) : Nat := 1 <<< n

/-- The `n`-th power of ten. -/
def tenPow (n : Nat) : Nat := Nat.pow 10 n

/-- A positive binary fraction `mantissa * 2 ^ exponent` of a format. `evenSpacing` fails where the next
smaller number of the format is half as far away as the next larger one. -/
structure Fraction where
  mantissa : Nat
  exponent : Int
  evenSpacing : Bool
  deriving DecidableEq, Repr

/-- A floating-point number read off its bits. -/
inductive Parts where
  | notANumber
  | infinite (negative : Bool)
  | zero (negative : Bool)
  | finite (negative : Bool) (value : Fraction)
  deriving DecidableEq, Repr

/-- Parts of a number with `fractionBits` and `exponentBits` below its sign. -/
def partsOfBits (fractionBits exponentBits : Nat) (bits : Nat) : Parts :=
  let fraction := bits % twoPow fractionBits
  let biased := bits / twoPow fractionBits % twoPow exponentBits
  let negative := bits / twoPow (fractionBits + exponentBits) % 2 == 1
  let least : Int := 2 - (twoPow (exponentBits - 1) : Int) - fractionBits
  if biased + 1 = twoPow exponentBits then
    if fraction = 0 then .infinite negative else .notANumber
  else if biased = 0 then
    if fraction = 0 then .zero negative else .finite negative ⟨fraction, least, true⟩
  else
    .finite negative
      ⟨twoPow fractionBits + fraction, least + (biased - 1), fraction != 0 || biased == 1⟩

/-- Parts of a single-precision number. -/
def partsOfFloat32 (x : Float32) : Parts := partsOfBits 23 8 x.toBits.toNat

/-- Parts of a double-precision number. -/
def partsOfFloat (x : Float) : Parts := partsOfBits 52 11 x.toBits.toNat

/-- The single nearest to a double, the even one of two. -/
def nearestSingle (x : Float) : Float32 :=
  ⟨.pack (match x.toModel.unpack with
    | .finite sign mantissa exponent _ => .round .binary32 sign mantissa exponent
    | other => other)⟩

end CorpusIndex.Decimal
