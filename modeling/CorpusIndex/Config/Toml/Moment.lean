import CorpusIndex.Decimal.Binary
import CorpusIndex.Decimal.Reading

/-!
# Dates and times

A moment is a day of the calendar, a time of day, or both, and then with or without the distance from
universal time. Reading accepts days that exist; printing writes each moment in one form.
-/
namespace CorpusIndex.Toml

open Decimal (isDigit)

/-- A day of the calendar. -/
structure Day where
  year : Nat
  month : Nat
  day : Nat
  deriving DecidableEq, Repr

/-- A time of day, down to the billionth of a second. -/
structure Clock where
  hour : Nat
  minute : Nat
  second : Nat
  billionths : Nat
  deriving DecidableEq, Repr

/-- Distance from universal time. -/
inductive Offset where
  | zero
  | east (hours minutes : Nat)
  | west (hours minutes : Nat)
  deriving DecidableEq, Repr

inductive Moment where
  | day (d : Day)
  | clock (t : Clock)
  | both (d : Day) (t : Clock) (offset : Option Offset)
  deriving DecidableEq, Repr

/-- Every fourth year, without full centuries that are no multiple of 400. -/
def isLeapYear (year : Nat) : Bool := year % 4 == 0 && (year % 100 != 0 || year % 400 == 0)

/-- The number of days in a month. -/
def daysIn (year month : Nat) : Nat :=
  if month = 2 then if isLeapYear year then 29 else 28
  else if month ∈ [4, 6, 9, 11] then 30
  else 31

/-- A number of exactly `width` digits between `low` and `high`. -/
def field? (width low high : Nat) (s : List Char) : Option (Nat × List Char) :=
  let ds := s.take width
  let n := Decimal.ofDigits ds
  if ds.length = width && ds.all isDigit && low ≤ n && n ≤ high then some (n, s.drop width) else none

/-- The text after one of `marks`. -/
def afterAny? (marks : List Char) : List Char → Option (List Char)
  | c :: r => if c ∈ marks then some r else none
  | [] => none

def day? (s : List Char) : Option (Day × List Char) := do
  let (year, r) ← field? 4 0 9999 s
  let (month, r) ← field? 2 1 12 (← afterAny? ['-'] r)
  let (day, r) ← field? 2 1 (daysIn year month) (← afterAny? ['-'] r)
  return (⟨year, month, day⟩, r)

/-- Digits of a fraction as billionths; digits after the ninth are cut off. -/
def billionths (ds : List Char) : Nat :=
  let ds := ds.take 9
  Decimal.ofDigits ds * Decimal.tenPow (9 - ds.length)

def clock? (s : List Char) : Option (Clock × List Char) := do
  let (hour, r) ← field? 2 0 23 s
  let (minute, r) ← field? 2 0 59 (← afterAny? [':'] r)
  let (second, r) ← field? 2 0 60 (← afterAny? [':'] r)
  match r with
  | '.' :: f =>
    let ds := f.takeWhile isDigit
    if ds.isEmpty then return (⟨hour, minute, second, 0⟩, r)
    else return (⟨hour, minute, second, billionths ds⟩, f.drop ds.length)
  | _ => return (⟨hour, minute, second, 0⟩, r)

def offset? (s : List Char) : Option (Offset × List Char) := do
  match s with
  | [] => none
  | sign :: r =>
    if sign ∈ ['Z', 'z'] then return (.zero, r)
    else if sign ∈ ['+', '-'] then
      let (hours, r) ← field? 2 0 23 r
      let (minutes, r) ← field? 2 0 59 (← afterAny? [':'] r)
      return (if sign = '+' then .east hours minutes else .west hours minutes, r)
    else none

/-- A moment at the start of a text. A day without a time after it stands alone. -/
def moment? (s : List Char) : Option (Moment × List Char) :=
  match day? s with
  | none => (clock? s).map (fun t => (.clock t.1, t.2))
  | some (d, r) =>
    match (afterAny? ['T', 't', ' '] r).bind clock? with
    | none => some (.day d, r)
    | some (t, r) =>
      match offset? r with
      | none => some (.both d t none, r)
      | some (o, r) => some (.both d t (some o), r)

/-- Decimal digits, filled up with zeros in front. -/
def padded (width n : Nat) : String :=
  let ds := Nat.toDigits 10 n
  String.ofList (List.replicate (width - ds.length) '0' ++ ds)

def Day.toText (d : Day) : String :=
  padded 4 d.year ++ "-" ++ padded 2 d.month ++ "-" ++ padded 2 d.day

/-- A fraction is written without zeros at its end, and not at all if it is zero. -/
def Clock.toText (t : Clock) : String :=
  let fraction := ((padded 9 t.billionths).toList.reverse.dropWhile (· == '0')).reverse
  padded 2 t.hour ++ ":" ++ padded 2 t.minute ++ ":" ++ padded 2 t.second ++
    (if fraction.isEmpty then "" else "." ++ String.ofList fraction)

/-- No distance to the west is written as one to the east. -/
def Offset.toText : Offset → String
  | .zero => "Z"
  | .east hours minutes => "+" ++ padded 2 hours ++ ":" ++ padded 2 minutes
  | .west hours minutes =>
    (if hours = 0 && minutes = 0 then "+" else "-") ++ padded 2 hours ++ ":" ++ padded 2 minutes

def Moment.toText : Moment → String
  | .day d => d.toText
  | .clock t => t.toText
  | .both d t offset => d.toText ++ "T" ++ t.toText ++ (offset.map Offset.toText).getD ""

end CorpusIndex.Toml
