import CorpusIndex.Proofs.Json.Number

/-!
# Where a number ends

A written number is a sign, digits, a fraction and an exponent, in this order. Whether or not a reader finds it
in range, a literal that is taken off its text is the whole text, whatever follows it.
-/
namespace CorpusIndex.Json

open Decimal (isDigit)

variable {s rest : List Char} {l : Literal}

/-! ### Reading -/

def Digits (ds : List Char) : Prop := ∀ c ∈ ds, isDigit c = true

/-- A point and digits, or nothing. -/
inductive FractionText : List Char → Prop
  | missing : FractionText []
  | point {ds : List Char} (h : Digits ds) : FractionText ('.' :: ds)

/-- An exponent with its sign, or nothing. -/
inductive ExponentText : List Char → Prop
  | missing : ExponentText []
  | signed {c : Char} {ds : List Char} (hc : c = '-' ∨ c = '+') (h : Digits ds) : ExponentText ('e' :: c :: ds)

/-- A sign, digits, a fraction and an exponent, of which all but the digits may be missing. -/
inductive NumberText : List Char → Prop
  | parts (negative : Bool) {whole fraction exponent : List Char} (hne : whole ≠ []) (hwhole : Digits whole)
      (hfraction : FractionText fraction) (hexponent : ExponentText exponent) :
      NumberText (Decimal.signText negative ++ (whole ++ (fraction ++ exponent)))

/-- Neither a digit nor a point comes next. -/
def Stops (s : List Char) : Prop := ∀ c ∈ s.head?, isDigit c = false ∧ c ≠ '.'

theorem Follows.stops (h : Follows rest) : Stops rest := by
  rcases h.cases with rfl | ⟨t, rfl⟩ | ⟨t, rfl⟩ | ⟨t, rfl⟩ | ⟨t, rfl⟩ <;> simp [Stops] <;> decide

theorem Digits.dropWhile {ds : List Char} (h : Digits ds) (hs : ∀ c ∈ s.head?, isDigit c = false) :
    (ds ++ s).dropWhile isDigit = s := by
  rw [List.dropWhile_append_of_pos h]
  cases s with
  | nil => rfl
  | cons c s => exact List.dropWhile_cons_of_neg (by simp [hs c rfl])

theorem ExponentText.stops {e : List Char} (h : ExponentText e) (hrest : Follows rest) : Stops (e ++ rest) := by
  cases h with
  | missing => exact hrest.stops
  | signed => simp [Stops]; decide

theorem ExponentText.ends {e r : List Char} {x : Option (Bool × List Char)} (h : ExponentText e)
    (hrest : Follows rest) (hx : exponent? (e ++ rest) = some (x, r)) : r = rest := by
  cases h with
  | missing =>
      rcases hrest.cases with rfl | ⟨t, rfl⟩ | ⟨t, rfl⟩ | ⟨t, rfl⟩ | ⟨t, rfl⟩ <;> cases hx <;> rfl
  | @signed c ds hc hds =>
      have hsign : ∃ down, exponentSign (c :: (ds ++ rest)) = (down, ds ++ rest) := by
        rcases hc with rfl | rfl <;> exact ⟨_, rfl⟩
      obtain ⟨down, hsign⟩ := hsign
      have hdrop := hds.dropWhile fun c hc => (hrest.stops c hc).1
      simp only [List.cons_append, exponent?, beq_self_eq_true, Bool.true_or, if_true, hsign, hdrop] at hx
      split at hx
      next => cases hx
      next => cases hx; rfl

theorem FractionText.ends {f r : List Char} {x : Option (List Char)} (h : FractionText f) (hs : Stops s)
    (hx : fraction? (f ++ s) = some (x, r)) : r = s := by
  cases h with
  | missing =>
      cases s with
      | nil => cases hx; rfl
      | cons c s =>
          rw [List.nil_append, fraction?_of_ne (hs c rfl).2] at hx
          cases hx
          rfl
  | point hds =>
      simp only [List.cons_append, fraction?, hds.dropWhile fun c hc => (hs c hc).1] at hx
      split at hx
      next => cases hx
      next => cases hx; rfl

theorem FractionText.not_digit {f : List Char} (h : FractionText f) (hs : Stops s) :
    ∀ c ∈ (f ++ s).head?, isDigit c = false := by
  cases h with
  | missing => exact fun c hc => (hs c hc).1
  | point => simp; decide

theorem literal?_eq_some {r : List Char} (h : literal? s = some (l, r)) : ∃ f t e,
    fraction? ((minus s).2.dropWhile isDigit) = some (f, t) ∧ exponent? t = some (e, r) := by
  simp only [literal?] at h
  split at h
  next => cases h
  next =>
    obtain ⟨⟨f, t⟩, hf, h⟩ := Option.bind_eq_some_iff.mp h
    obtain ⟨⟨e, u⟩, he, h⟩ := Option.bind_eq_some_iff.mp h
    cases h
    exact ⟨f, t, e, hf, he⟩

theorem minus_signText (negative : Bool) (hne : s ≠ []) (hs : Digits s) (t : List Char) :
    minus (Decimal.signText negative ++ (s ++ t)) = (negative, s ++ t) := by
  cases negative with
  | true => rfl
  | false =>
      obtain ⟨d, ds, rfl⟩ := List.exists_cons_of_ne_nil hne
      refine minus_of_ne ?_
      rintro rfl
      exact absurd (hs '-' List.mem_cons_self) (by decide)

/-- A literal taken off the text of a number is all of it. -/
theorem NumberText.ends {r : List Char} (h : NumberText s) (hrest : Follows rest)
    (hl : literal? (s ++ rest) = some (l, r)) : r = rest := by
  cases h with
  | parts negative hne hwhole hfraction hexponent =>
      obtain ⟨f, t, e, hf, he⟩ := literal?_eq_some hl
      have hstops := hexponent.stops hrest
      simp only [List.append_assoc, minus_signText negative hne hwhole,
        hwhole.dropWhile (hfraction.not_digit hstops)] at hf
      obtain rfl := hfraction.ends hstops hf
      exact hexponent.ends hrest he

theorem NumberText.head (h : NumberText s) : ∃ c t, s = c :: t ∧ (c = '-' ∨ isDigit c = true) := by
  cases h with
  | parts negative hne hwhole _ _ =>
      cases negative with
      | true => exact ⟨'-', _, rfl, .inl rfl⟩
      | false =>
          obtain ⟨d, ds, rfl⟩ := List.exists_cons_of_ne_nil hne
          exact ⟨d, _, rfl, .inr (hwhole d List.mem_cons_self)⟩

/-! ### Writing -/

theorem digits_toDigits (n : Nat) : Digits (Nat.toDigits 10 n) := fun _ h => isDigit_of_mem_toDigits h

theorem digits_replicate (n : Nat) : Digits (List.replicate n '0') := by
  intro c hc
  rw [List.eq_of_mem_replicate hc]
  rfl

theorem Digits.append {a b : List Char} (ha : Digits a) (hb : Digits b) : Digits (a ++ b) :=
  fun c hc => (List.mem_append.mp hc).elim (ha c) (hb c)

theorem Digits.sublist {a b : List Char} (hb : Digits b) (h : a.Sublist b) : Digits a :=
  fun c hc => hb c (h.subset hc)

theorem NumberText.positional (negative mark : Bool) {ds : List Char} (hne : ds ≠ []) (hds : Digits ds)
    (e : Int) : NumberText (Decimal.signText negative ++ Decimal.positionalText mark ds e) := by
  unfold Decimal.positionalText
  split
  next =>
    have hzeros := (digits_replicate (-e - 1).toNat).append hds
    simpa using parts negative (List.cons_ne_nil '0' []) (digits_replicate 1) (.point hzeros) .missing
  next =>
    dsimp only
    split
    next =>
      have hwhole := hds.append (digits_replicate (e.toNat + 1 - ds.length))
      have hmark : FractionText (if mark = true then ['.', '0'] else []) := by
        cases mark with
        | true => exact .point (digits_replicate 1)
        | false => exact .missing
      simpa using parts negative (by simp [hne]) hwhole hmark .missing
    next =>
      have hwhole := hds.sublist (List.take_sublist (e.toNat + 1) ds)
      have hfraction := hds.sublist (List.drop_sublist (e.toNat + 1) ds)
      simpa using parts negative (by simp [hne]) hwhole (.point hfraction) .missing

theorem NumberText.exponential (negative : Bool) {ds : List Char} (hne : ds ≠ []) (hds : Digits ds)
    (e : Int) : NumberText (Decimal.signText negative ++ Decimal.exponentText ds e) := by
  have hwhole := hds.sublist (List.take_sublist 1 ds)
  have hdrop := hds.sublist (List.drop_sublist 1 ds)
  have hfraction : FractionText (if (ds.drop 1).isEmpty then [] else '.' :: ds.drop 1) := by
    split
    next => exact .missing
    next => exact .point hdrop
  have hexponent : ExponentText ('e' :: (if e < 0 then '-' else '+') :: Decimal.digitText e.natAbs) :=
    .signed (by split <;> simp) (digits_toDigits _)
  simpa [Decimal.exponentText] using parts negative (by simp [hne]) hwhole hfraction hexponent

theorem numberText_write? {n : Decimal.Notation} {p : Decimal.Parts} {literal : List Char}
    (h : n.write? p = some literal) : NumberText literal := by
  cases p with
  | notANumber => cases h
  | infinite negative => cases h
  | zero negative =>
      cases h
      have hzero : Digits ['0'] := digits_replicate 1
      split
      next => exact .parts negative (List.cons_ne_nil '0' []) hzero (.point hzero) .missing
      next => exact .parts negative (List.cons_ne_nil '0' []) hzero .missing .missing
  | finite negative f =>
      cases h
      have hne : Decimal.digitText (f.shortest n.tie).digits ≠ [] := Nat.toDigits_ne_nil
      unfold Decimal.Notation.text
      dsimp only
      split
      next => exact .positional negative _ hne (digits_toDigits _) _
      next => exact .exponential negative hne (digits_toDigits _) _

theorem numberText_ofNat (negative : Bool) (n : Nat) :
    NumberText (Decimal.signText negative ++ Nat.toDigits 10 n) := by
  simpa only [List.append_nil] using
    NumberText.parts negative Nat.toDigits_ne_nil (digits_toDigits n) .missing .missing

end CorpusIndex.Json
