import CorpusIndex.Decimal.Reading
import CorpusIndex.Proofs.Except
import CorpusIndex.Proofs.Json.Number

/-!
# Whole numbers that are read

A text stands for a whole number if it has the digits of the number, with or without zeros before them and with
or without a plus sign, and a word holds the number. Exactly these texts are read.
-/
namespace CorpusIndex.Decimal

variable {s ds : List Char} {n : Nat}

/-- Digits of a number that a word holds. -/
structure DigitsOf (ds : List Char) (n : Nat) : Prop where
  ne_nil : ds ≠ []
  all : ∀ d ∈ ds, isDigit d = true
  value : ofDigits ds = n
  fits : n ≤ maxWord

/-- A text of a whole number. -/
inductive Whole : List Char → Nat → Prop
  | plain {ds : List Char} {n : Nat} : DigitsOf ds n → Whole ds n
  | signed {ds : List Char} {n : Nat} : DigitsOf ds n → Whole ('+' :: ds) n

/-- The text without a plus sign that has something after it. -/
def withoutPlus (s : List Char) : List Char :=
  match s with
  | '+' :: rest => if rest.isEmpty then s else rest
  | _ => s

theorem withoutPlus_signed (h : ds ≠ []) : withoutPlus ('+' :: ds) = ds := if_neg (by simpa using h)

theorem withoutPlus_of_head (h : s.head? ≠ some '+') : withoutPlus s = s := by
  unfold withoutPlus
  split
  next => exact absurd rfl h
  next => rfl

theorem readWhole_eq_ok : readWhole s = .ok n ↔ s ≠ [] ∧ (∀ d ∈ withoutPlus s, isDigit d = true) ∧
    ofDigits (withoutPlus s) = n ∧ n ≤ maxWord := by
  have hread : readWhole s = if s.isEmpty then .error .empty
    else if !(withoutPlus s).all isDigit then .error .invalidDigit
    else if ofDigits (withoutPlus s) ≤ maxWord then .ok (ofDigits (withoutPlus s)) else .error .tooLarge := rfl
  rw [hread, ← List.all_eq_true]
  split
  next hnil => simp [List.isEmpty_iff.mp hnil]
  next hne =>
    rw [List.isEmpty_iff] at hne
    cases (withoutPlus s).all isDigit with
    | false => simp
    | true =>
        by_cases hfits : ofDigits (withoutPlus s) ≤ maxWord
        · simp only [hfits, Bool.not_true, Bool.false_eq_true, if_false, if_true, Except.ok.injEq]
          constructor
          · rintro rfl
            exact ⟨hne, trivial, rfl, hfits⟩
          · exact fun h => h.2.2.1
        · simp only [hfits, Bool.not_true, Bool.false_eq_true, if_false, reduceCtorEq, false_iff]
          rintro ⟨_, _, rfl, hle⟩
          exact hfits hle

theorem DigitsOf.head (h : DigitsOf ds n) : ds.head? ≠ some '+' := fun hhead =>
  absurd (h.all '+' (List.mem_of_head? hhead)) (by decide)

theorem readWhole_eq_ok_iff : readWhole s = .ok n ↔ Whole s n := by
  rw [readWhole_eq_ok]
  constructor
  · rintro ⟨hne, hall, hvalue, hfits⟩
    by_cases hplus : ∃ ds, ds ≠ [] ∧ s = '+' :: ds
    · obtain ⟨ds, hds, rfl⟩ := hplus
      rw [withoutPlus_signed hds] at hall hvalue
      exact .signed ⟨hds, hall, hvalue, hfits⟩
    · have hsame : withoutPlus s = s := by
        unfold withoutPlus
        split
        next rest => rw [if_pos (by simpa using not_exists.mp hplus rest)]
        next => rfl
      rw [hsame] at hall hvalue
      exact .plain ⟨hne, hall, hvalue, hfits⟩
  · rintro (h | @⟨ds, _, h⟩)
    · rw [withoutPlus_of_head h.head]
      exact ⟨h.ne_nil, h.all, h.value, h.fits⟩
    · rw [withoutPlus_signed h.ne_nil]
      exact ⟨List.cons_ne_nil _ _, h.all, h.value, h.fits⟩

/-- Digits are read as their value, unless it is beyond a word. -/
theorem readWhole?_of_digits (hne : ds ≠ []) (hall : ∀ d ∈ ds, isDigit d = true) :
    readWhole? ds = Option.guard (· ≤ maxWord) (ofDigits ds) := by
  have hplain : withoutPlus ds = ds := withoutPlus_of_head fun hhead =>
    absurd (hall '+' (List.mem_of_head? hhead)) (by decide)
  refine Option.ext fun n => ?_
  rw [readWhole?, toOption_eq_some, readWhole_eq_ok, hplain, Option.guard_eq_some_iff, decide_eq_true_eq]
  constructor
  · rintro ⟨-, -, hvalue, hfits⟩
    exact ⟨hvalue, hvalue ▸ hfits⟩
  · rintro ⟨hvalue, hfits⟩
    exact ⟨hne, hall, hvalue, hvalue ▸ hfits⟩

/-- A number that a word holds is written as a text of it. -/
theorem whole_toString (h : n ≤ maxWord) : Whole (toString n).toList n := by
  have htext : (toString n).toList = Nat.toDigits 10 n := by simp
  rw [htext]
  exact .plain ⟨Nat.toDigits_ne_nil, fun _ hd => Json.isDigit_of_mem_toDigits hd, Json.ofDigits_toDigits n, h⟩

end CorpusIndex.Decimal
