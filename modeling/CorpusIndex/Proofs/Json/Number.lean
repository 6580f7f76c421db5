import CorpusIndex.Json.Basic
import CorpusIndex.Json.Number
import CorpusIndex.Json.Printer
import Mathlib.Data.List.TakeWhile

/-!
# Numbers read back

Whole numbers within a word are read back from their digits. A literal with a point or an exponent is
a real number and never a whole one. A literal ends where a comma, a line break or a closing bracket
follows.
-/
namespace CorpusIndex.Json

open Decimal (isDigit maxWord signedBound)

variable {s rest : List Char} {l : Literal} {n : Nat} {c : Char}

/-! ### What follows a literal -/

/-- What may come after a value: nothing, a comma, a line break or a closing bracket. -/
def Follows (rest : List Char) : Prop := ∀ c ∈ rest.head?, c ∈ [',', '\n', ']', '\x7d']

theorem follows_nil : Follows [] := by simp [Follows]
theorem follows_comma : Follows (',' :: rest) := by simp [Follows]
theorem follows_newline (depth : Nat) (rest : List Char) : Follows (newline depth ++ rest) := by
  simp [Follows, newline]
theorem follows_bracket : Follows (']' :: rest) := by simp [Follows]
theorem follows_brace : Follows ('\x7d' :: rest) := by simp [Follows]

theorem Follows.cases (h : Follows rest) : rest = [] ∨ (∃ t, rest = ',' :: t) ∨ (∃ t, rest = '\n' :: t) ∨
    (∃ t, rest = ']' :: t) ∨ ∃ t, rest = '\x7d' :: t := by
  cases rest with
  | nil => exact .inl rfl
  | cons c t =>
      have hc : c = ',' ∨ c = '\n' ∨ c = ']' ∨ c = '\x7d' := by simpa using h c rfl
      simpa using hc

theorem Follows.takeWhile (h : Follows rest) : rest.takeWhile isDigit = [] := by
  rcases h.cases with rfl | ⟨t, rfl⟩ | ⟨t, rfl⟩ | ⟨t, rfl⟩ | ⟨t, rfl⟩ <;> rfl

theorem Follows.dropWhile (h : Follows rest) : rest.dropWhile isDigit = rest := by
  rcases h.cases with rfl | ⟨t, rfl⟩ | ⟨t, rfl⟩ | ⟨t, rfl⟩ | ⟨t, rfl⟩ <;> rfl

theorem takeWhile_append (h : Follows rest) (s : List Char) :
    (s ++ rest).takeWhile isDigit = s.takeWhile isDigit := by
  rw [List.takeWhile_append, h.takeWhile, List.append_nil]
  split
  next hall => exact (List.takeWhile_prefix _).eq_of_length hall |>.symm
  next => rfl

theorem dropWhile_append (h : Follows rest) (s : List Char) :
    (s ++ rest).dropWhile isDigit = s.dropWhile isDigit ++ rest := by
  rw [List.dropWhile_append, h.dropWhile]
  split
  next hnil => rw [List.isEmpty_iff.mp hnil, List.nil_append]
  next => rfl

theorem fraction?_of_ne (hc : c ≠ '.') : fraction? (c :: s) = some (none, c :: s) := by
  simp [fraction?, hc]

theorem exponentSign_of_ne (hminus : c ≠ '-') (hplus : c ≠ '+') :
    exponentSign (c :: s) = (false, c :: s) := by
  simp [exponentSign, hminus, hplus]

theorem minus_of_ne (hc : c ≠ '-') : minus (c :: s) = (false, c :: s) := by
  simp [minus, hc]

/-! Parts are read off a text alike whatever follows the literal. -/

theorem fraction?_append (h : Follows rest) {t : List Char} {f : Option (List Char)}
    (hs : fraction? s = some (f, t)) : fraction? (s ++ rest) = some (f, t ++ rest) := by
  cases s with
  | nil =>
      cases hs
      rcases h.cases with rfl | ⟨t, rfl⟩ | ⟨t, rfl⟩ | ⟨t, rfl⟩ | ⟨t, rfl⟩ <;> rfl
  | cons c s =>
      by_cases hc : c = '.'
      · subst hc
        simp only [fraction?] at hs
        simp only [List.cons_append, fraction?, takeWhile_append h, dropWhile_append h]
        split at hs
        next => cases hs
        next hdigits =>
          cases hs
          rw [if_neg hdigits]
      · rw [fraction?_of_ne hc] at hs
        cases hs
        exact fraction?_of_ne hc

theorem exponentSign_append (h : Follows rest) (s : List Char) :
    exponentSign (s ++ rest) = ((exponentSign s).1, (exponentSign s).2 ++ rest) := by
  cases s with
  | nil => rcases h.cases with rfl | ⟨t, rfl⟩ | ⟨t, rfl⟩ | ⟨t, rfl⟩ | ⟨t, rfl⟩ <;> rfl
  | cons c s =>
      by_cases hminus : c = '-'
      · subst hminus
        rfl
      · by_cases hplus : c = '+'
        · subst hplus
          rfl
        · rw [List.cons_append, exponentSign_of_ne hminus hplus, exponentSign_of_ne hminus hplus]
          rfl

theorem exponent?_append (h : Follows rest) {t : List Char} {e : Option (Bool × List Char)}
    (hs : exponent? s = some (e, t)) : exponent? (s ++ rest) = some (e, t ++ rest) := by
  cases s with
  | nil =>
      cases hs
      rcases h.cases with rfl | ⟨t, rfl⟩ | ⟨t, rfl⟩ | ⟨t, rfl⟩ | ⟨t, rfl⟩ <;> rfl
  | cons c s =>
      simp only [exponent?] at hs
      simp only [List.cons_append, exponent?, exponentSign_append h, takeWhile_append h,
        dropWhile_append h]
      split at hs
      next hc =>
        rw [if_pos hc]
        split at hs
        next => cases hs
        next hdigits =>
          cases hs
          rw [if_neg hdigits]
      next hc =>
        cases hs
        rw [if_neg hc]
        rfl

theorem literal?_append (h : Follows rest) (hs : literal? s = some (l, [])) :
    literal? (s ++ rest) = some (l, rest) := by
  have hminus : s ≠ [] → minus (s ++ rest) = ((minus s).1, (minus s).2 ++ rest) := by
    intro hs
    cases s with
    | nil => exact absurd rfl hs
    | cons c s =>
        by_cases hc : c = '-'
        · subst hc
          rfl
        · rw [List.cons_append, minus_of_ne hc, minus_of_ne hc]
          rfl
  have hne : s ≠ [] := by
    rintro rfl
    cases hs
  simp only [literal?] at hs
  simp only [literal?, hminus hne, takeWhile_append h, dropWhile_append h]
  split at hs
  next => cases hs
  next hwhole =>
    obtain ⟨⟨f, t⟩, hf, hs⟩ := Option.bind_eq_some_iff.mp hs
    obtain ⟨⟨e, u⟩, he, hs⟩ := Option.bind_eq_some_iff.mp hs
    cases hs
    rw [if_neg hwhole, fraction?_append h hf]
    simp only [Option.bind_eq_bind, Option.bind_some, exponent?_append h he]
    rfl

/-! ### Whole numbers -/

theorem isDigit_of_mem_toDigits (h : c ∈ Nat.toDigits 10 n) : isDigit c = true := by
  have hdigit := Nat.isDigit_of_mem_toDigits (by decide) (by decide) h
  simpa [isDigit, Char.isDigit, Char.le_def] using hdigit

theorem ofDigits_toDigits (n : Nat) : Decimal.ofDigits (Nat.toDigits 10 n) = n := by
  have hsame (ds : List Char) (m : Nat) :
      ds.foldl (fun n d => n * 10 + (d.toNat - '0'.toNat)) m = Nat.ofDigitChars 10 ds m := by
    simp only [Nat.ofDigitChars, Nat.mul_comm]
  rw [Decimal.ofDigits, hsame, Nat.ofDigitChars_ten_toDigits]

theorem head?_toDigits (h : 0 < n) : (Nat.toDigits 10 n).head? ≠ some '0' := by
  induction n using Nat.strongRecOn with
  | ind n ih =>
      rw [Nat.toDigits_eq_if (by decide)]
      split
      next hlt =>
        have hall : ∀ n < 10, 0 < n → [Nat.digitChar n].head? ≠ some '0' := by decide
        exact hall n hlt h
      next hge =>
        have hhead := ih (n / 10) (by omega) (by omega)
        cases hd : Nat.toDigits 10 (n / 10) with
        | nil => exact absurd hd Nat.toDigits_ne_nil
        | cons d ds => simpa [hd] using hhead

theorem hasLeadingZero_toDigits (n : Nat) : hasLeadingZero (Nat.toDigits 10 n) = false := by
  rcases Nat.eq_zero_or_pos n with rfl | hpos
  · rfl
  · have hhead := head?_toDigits hpos
    unfold hasLeadingZero
    split
    next heq => simp [heq] at hhead
    next => rfl

/-- Digits are a literal without point and exponent. -/
theorem digits_literal (negative : Bool) (n : Nat) (h : minus s = (negative, Nat.toDigits 10 n)) :
    literal? s = some (⟨negative, Nat.toDigits 10 n, none, none⟩, []) := by
  have hall : ∀ d ∈ Nat.toDigits 10 n, isDigit d = true := fun d hd => isDigit_of_mem_toDigits hd
  have htake : (Nat.toDigits 10 n).takeWhile isDigit = Nat.toDigits 10 n :=
    List.takeWhile_eq_self_iff.mpr hall
  have hdrop : (Nat.toDigits 10 n).dropWhile isDigit = [] := List.dropWhile_eq_nil_iff.mpr hall
  have hne : (Nat.toDigits 10 n).isEmpty = false := by simp
  simp only [literal?, h, htake, hdrop, hne, hasLeadingZero_toDigits]
  rfl

theorem minus_toDigits (n : Nat) : minus (Nat.toDigits 10 n) = (false, Nat.toDigits 10 n) := by
  cases hd : Nat.toDigits 10 n with
  | nil => exact absurd hd Nat.toDigits_ne_nil
  | cons d ds =>
      refine minus_of_ne ?_
      rintro rfl
      exact absurd (isDigit_of_mem_toDigits (hd ▸ List.mem_cons_self)) (by decide)

/-- All digits are taken where a word holds their number. -/
theorem absorb_of_le {ds : List Char} {m : Nat}
    (h : ds.foldl (fun n d => n * 10 + (d.toNat - '0'.toNat)) m ≤ maxWord) :
    absorb m ds = (ds.foldl (fun n d => n * 10 + (d.toNat - '0'.toNat)) m, 0) := by
  have hgrows (ds : List Char) (m : Nat) :
      m ≤ ds.foldl (fun n d => n * 10 + (d.toNat - '0'.toNat)) m := by
    induction ds generalizing m with
    | nil => exact Nat.le_refl m
    | cons d ds ih => exact Nat.le_trans (Nat.le_trans (by omega) (Nat.le_add_right _ _)) (ih _)
  induction ds generalizing m with
  | nil => rfl
  | cons d ds ih =>
      have hfits : m * 10 + (d.toNat - '0'.toNat) ≤ maxWord := Nat.le_trans (hgrows ds _) h
      rw [absorb, if_pos hfits]
      exact ih h

theorem absorb_toDigits (h : n ≤ maxWord) : absorb 0 (Nat.toDigits 10 n) = (n, 0) := by
  have hvalue : (Nat.toDigits 10 n).foldl (fun n d => n * 10 + (d.toNat - '0'.toNat)) 0 = n :=
    ofDigits_toDigits n
  rw [absorb_of_le (by rwa [hvalue]), hvalue]

/-- No digit is left where the digits are taken as a whole. -/
theorem absorb_complete {ds : List Char} {m k : Nat} (h : absorb m ds = (k, 0)) :
    ds.foldl (fun n d => n * 10 + (d.toNat - '0'.toNat)) m = k := by
  induction ds generalizing m with
  | nil =>
      cases h
      rfl
  | cons d ds ih =>
      rw [absorb] at h
      split at h
      next => exact ih h
      next => cases h

/-- The digits of a number within a word stand for it. -/
theorem numberValue?_toDigits (h : n ≤ maxWord) :
    numberValue? (Nat.toDigits 10 n) = some (.whole n) := by
  simp only [numberValue?, digits_literal false n (minus_toDigits n), Literal.value?, absorb_toDigits h]
  rfl

theorem numberValue?_minus (hpos : 0 < n) (h : n ≤ signedBound) :
    numberValue? ('-' :: Nat.toDigits 10 n) = some (.whole (-n)) := by
  have hword : n ≤ maxWord := Nat.le_trans h (by decide)
  have hsmall : ¬ ((n = 0 || n > signedBound) = true) := by simp; omega
  have hliteral := digits_literal (s := '-' :: Nat.toDigits 10 n) true n rfl
  simp only [numberValue?, hliteral, Literal.value?, absorb_toDigits hword, hsmall]
  rfl

/-! ### Real numbers -/

theorem fraction?_none {t : List Char} (h : fraction? s = some (none, t)) : t = s := by
  unfold fraction? at h
  split at h
  next =>
    dsimp only at h
    split at h <;> cases h
  next => cases h; rfl

theorem exponent?_none {t : List Char} (h : exponent? s = some (none, t)) : t = s := by
  unfold exponent? at h
  split at h
  next =>
    split at h
    next => dsimp only at h; split at h <;> cases h
    next => cases h; rfl
  next => cases h; rfl

/-- A literal without point and exponent has nothing but a sign and digits. -/
theorem plain_of_literal? (hs : literal? s = some (l, [])) (hf : l.fraction = none)
    (he : l.exponent = none) : ∀ c ∈ s, c = '-' ∨ isDigit c = true := by
  have hdigits : (minus s).2.dropWhile isDigit = [] := by
    simp only [literal?] at hs
    split at hs
    next => cases hs
    next =>
      obtain ⟨⟨f, t⟩, hfraction, hs⟩ := Option.bind_eq_some_iff.mp hs
      obtain ⟨⟨e, u⟩, hexponent, hs⟩ := Option.bind_eq_some_iff.mp hs
      cases hs
      cases hf
      cases he
      rw [← fraction?_none hfraction]
      exact (exponent?_none hexponent).symm
  have hall := List.dropWhile_eq_nil_iff.mp hdigits
  intro c hc
  unfold minus at hall
  split at hall
  next => exact (List.mem_cons.mp hc).imp id (hall c)
  next => exact .inr (hall c hc)

/-- Only a literal without point and exponent stands for a whole number. -/
theorem real_of_marked {v : NumberValue} (hv : l.value? = some v)
    (hl : l.fraction ≠ none ∨ l.exponent ≠ none) : ∃ x, v = .real x := by
  unfold Literal.value? at hv
  dsimp only at hv
  split at hv
  next hf he => simp [hf, he] at hl
  next =>
    split at hv
    next =>
      obtain ⟨x, _, rfl⟩ := Option.map_eq_some_iff.mp hv
      exact ⟨_, rfl⟩
    next =>
      split at hv
      next =>
        split at hv
        next => cases hv
        next => cases hv; exact ⟨_, rfl⟩
      next =>
        obtain ⟨x, _, rfl⟩ := Option.map_eq_some_iff.mp hv
        exact ⟨_, rfl⟩

/-- Real numbers are written with a point or an exponent. -/
theorem marked_of_write? {d : Decimal.Parts} {literal : List Char}
    (h : doubleNotation.write? d = some literal) : '.' ∈ literal ∨ 'e' ∈ literal := by
  cases d with
  | notANumber => cases h
  | infinite negative => cases h
  | zero negative =>
      cases h
      exact .inl (by simp [doubleNotation])
  | finite negative f =>
      cases h
      simp only [Decimal.Notation.text]
      split
      next =>
        refine .inl (List.mem_append_right _ ?_)
        simp only [Decimal.positionalText, doubleNotation]
        split
        next => simp
        next => split <;> simp
      next => exact .inr (by simp [Decimal.exponentText])

/-- The text of a real number is never read as a whole one. -/
theorem real_of_ofFloat {x : Float} {literal : List Char} {v : NumberValue}
    (h : Json.ofFloat x = .number literal) (hv : numberValue? literal = some v) : ∃ y, v = .real y := by
  have hmarked : '.' ∈ literal ∨ 'e' ∈ literal := by
    unfold Json.ofFloat at h
    split at h
    next hw =>
      cases h
      exact marked_of_write? hw
    next => cases h
  unfold numberValue? at hv
  split at hv
  next l hl =>
    refine real_of_marked hv ?_
    by_contra hnone
    obtain ⟨hf, he⟩ := not_or.mp hnone
    have hplain := plain_of_literal? hl (not_not.mp hf) (not_not.mp he)
    rcases hmarked with hc | hc
    · exact absurd (hplain _ hc) (by decide)
    · exact absurd (hplain _ hc) (by decide)
  next => cases hv

end CorpusIndex.Json
