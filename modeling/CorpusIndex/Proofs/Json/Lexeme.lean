import CorpusIndex.Json.Lexeme
import CorpusIndex.Json.Printer
import Mathlib.Data.List.Basic

/-!
# Strings and blanks read back

A string is read back from its quoted form, whatever characters it has: every escape that is written
stands for the character it was written for.
-/
namespace CorpusIndex.Json

variable {seen cs rest s t : List Char} {c : Char}

/-! ### Blanks -/

theorem skipBlanks_cons_of_blank (h : c = ' ' ∨ c = '\n') : skipBlanks (c :: s) = skipBlanks s := by
  rcases h with rfl | rfl <;> rfl

theorem skipBlanks_newline (depth : Nat) (s : List Char) :
    skipBlanks (newline depth ++ s) = skipBlanks s := by
  have hspaces (n : Nat) : skipBlanks (List.replicate n ' ' ++ s) = skipBlanks s := by
    induction n with
    | zero => rfl
    | succ n ih =>
        rw [List.replicate_succ, List.cons_append, skipBlanks_cons_of_blank (.inl rfl), ih]
  rw [newline, List.cons_append, skipBlanks_cons_of_blank (.inr rfl), hspaces]

/-! ### Escapes -/

theorem hexValue?_digitChar {k : Nat} (h : k < 16) : hexValue? (Nat.digitChar k) = some k := by
  have hall : ∀ k < 16, hexValue? (Nat.digitChar k) = some k := by decide
  exact hall k h

/-- Four digits are enough for a number of two bytes. -/
theorem hexWord?_hexDigits {n : Nat} (h : n < 65536) : ∃ a b c d,
    Digest.hexDigits 4 n = [a, b, c, d] ∧ hexWord? a b c d = some n := by
  have hdigit (m : Nat) : hexValue? (Nat.digitChar (m % 16)) = some (m % 16) :=
    hexValue?_digitChar (Nat.mod_lt m (by decide))
  refine ⟨_, _, _, _, rfl, ?_⟩
  simp only [hexWord?, hdigit]
  refine congrArg some ?_
  omega

/-- A character that is written as it is. -/
theorem stringRest_plain (hquote : c ≠ '"') (hslash : c ≠ '\\') (hlow : ¬ c.toNat < 32) :
    stringRest seen (c :: rest) = stringRest (c :: seen) rest := by
  simp [stringRest, hslash, hlow]

/-- What is written for a character stands for it. -/
theorem stringRest_escapeChar (seen : List Char) (c : Char) (rest : List Char) :
    stringRest seen (escapeChar c ++ rest) = stringRest (c :: seen) rest := by
  have hcode (n : Nat) (hn : c.toNat = n) : Char.ofNat n = c := by rw [← hn, Char.ofNat_toNat]
  unfold escapeChar
  split
  · simp [stringRest, simpleEscape?]
  · simp [stringRest, simpleEscape?]
  · simp [stringRest, simpleEscape?]
  · simp [stringRest, simpleEscape?]
  · simp [stringRest, simpleEscape?]
  next hquote hslash _ _ _ =>
    split
    next h =>
      rw [← hcode 8 (beq_iff_eq.mp h)]
      simp [stringRest, simpleEscape?]
    next =>
      split
      next h =>
        rw [← hcode 12 (beq_iff_eq.mp h)]
        simp [stringRest, simpleEscape?]
      next =>
        split
        next hlow =>
          obtain ⟨a, b, d, e, hdigits, hword⟩ := hexWord?_hexDigits (n := c.toNat) (by omega)
          have hhigh : ¬ 0xD800 ≤ c.toNat := by omega
          have hpaired : ¬ 0xDC00 ≤ c.toNat := by omega
          simp [hdigits, stringRest, hword, hhigh, hpaired, Char.ofNat_toNat]
        next hplain => exact stringRest_plain hquote hslash hplain

theorem stringRest_escaped (seen cs rest : List Char) :
    stringRest seen (cs.flatMap escapeChar ++ '"' :: rest) =
      some (String.ofList (seen.reverse ++ cs), rest) := by
  induction cs generalizing seen with
  | nil => simp [stringRest]
  | cons c cs ih =>
      rw [List.flatMap_cons, List.append_assoc, stringRest_escapeChar, ih]
      simp

theorem stringRest_quoted (s : String) (rest : List Char) :
    ∃ body, quoted s ++ rest = '"' :: body ∧ stringRest [] body = some (s, rest) := by
  refine ⟨s.toList.flatMap escapeChar ++ '"' :: rest, by simp [quoted], ?_⟩
  rw [stringRest_escaped]
  simp

end CorpusIndex.Json
