import CorpusIndex.Decimal.Binary

/-!
# The fewest decimal digits that read back

Every real number nearer to a floating-point number than to its neighbours reads back as that number.
Of the decimals in this interval, the ones with the fewest digits are wanted, and of those the
nearest. A decimal grid with a point in the interval has one next to the number itself, so two
candidates are tried on each grid, from coarse to fine.
-/
namespace CorpusIndex.Decimal

/-- The decimal `digits * 10 ^ exponent`. -/
structure Numeral where
  digits : Nat
  exponent : Int
  deriving DecidableEq, Repr

/-- Which of two equally near candidates is taken. -/
inductive Tie where
  | toEven
  | up
  deriving DecidableEq, Repr

/-- Number of decimal digits; zero has one. -/
def digitCount (n : Nat) : Nat := (Nat.toDigits 10 n).length

/-- The exponent `e` with `10 ^ e ≤ num / den < 10 ^ (e + 1)`. -/
def leadingExponent (num den : Nat) : Int :=
  if den ≤ num then digitCount (num / den) - 1
  else
    let j := digitCount (den / num)
    if den ≤ num * tenPow (j - 1) then 1 - (j : Int) else -(j : Int)

/-- The interval of reals that read back as a number, over the common denominator `den`. -/
structure Interval where
  low : Nat
  value : Nat
  high : Nat
  den : Nat
  closed : Bool

def Fraction.interval (f : Fraction) : Interval :=
  let e := f.exponent - 2
  let scale := twoPow e.toNat
  ⟨(4 * f.mantissa - if f.evenSpacing then 2 else 1) * scale, 4 * f.mantissa * scale,
    (4 * f.mantissa + 2) * scale, twoPow (-e).toNat, f.mantissa % 2 == 0⟩

/-- The candidate `c` on a grid of step `unit` lies in the interval. -/
def Interval.holds (i : Interval) (c unit : Nat) : Bool :=
  if i.closed then i.low ≤ c * unit && c * unit ≤ i.high
  else i.low < c * unit && c * unit < i.high

/-- The interval with every bound multiplied. -/
def Interval.scale (i : Interval) (k : Nat) : Interval :=
  { i with low := i.low * k, value := i.value * k, high := i.high * k }

/-- The better grid neighbour of the number that lies in the interval, on the grid of multiples of
`10 ^ exponent`. -/
def Interval.onGrid (i : Interval) (tie : Tie) (exponent : Int) : Option Nat :=
  let i := i.scale (tenPow (-exponent).toNat)
  let unit := i.den * tenPow exponent.toNat
  let below := i.value / unit
  let rest := i.value % unit
  let takeBelow := if 2 * rest = unit then (tie == .toEven && below % 2 == 0) else 2 * rest < unit
  match i.holds below unit, i.holds (below + 1) unit with
  | true, true => some (if takeBelow then below else below + 1)
  | true, false => some below
  | false, true => some (below + 1)
  | false, false => none

/-- Grids from `10 ^ top` downwards, at most `more + 1` of them. The last grid is taken as it is. -/
def Interval.search (i : Interval) (tie : Tie) (top : Int) : (more : Nat) → Numeral
  | 0 =>
    let below := i.value * tenPow (-top).toNat / (i.den * tenPow top.toNat)
    ⟨(i.onGrid tie top).getD below, top⟩
  | more + 1 =>
    match i.onGrid tie top with
    | some digits => ⟨digits, top⟩
    | none => i.search tie (top - 1) more

/-- The decimal without zeros at the end of its digits. -/
def Numeral.strip (d : Numeral) : (fuel : Nat) → Numeral
  | 0 => d
  | fuel + 1 =>
    if d.digits % 10 == 0 && d.digits != 0 then (Numeral.mk (d.digits / 10) (d.exponent + 1)).strip fuel
    else d

/-- The shortest decimal that reads back; seventeen digits are enough for both precisions. -/
def Fraction.shortest (f : Fraction) (tie : Tie) : Numeral :=
  let i := f.interval
  (i.search tie (leadingExponent i.value i.den) 17).strip 18

end CorpusIndex.Decimal
