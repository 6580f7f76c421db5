import CorpusIndex.Json.Decode
import CorpusIndex.Proofs.Except
import CorpusIndex.Proofs.Json.Lexeme
import CorpusIndex.Proofs.Json.NumberText
import Mathlib.Data.List.DropRight

/-!
# Values read back

A value has a compact text and an indented one at every level. These layouts differ in blanks only, at the
start of an item or a field, before a closing bracket and after a colon. `Legible depth shape j` says that a
reader of this depth and shape takes the value `j` off its text in any layout, whatever follows it. There is
one rule for each kind of value. Where a number may be out of range, the text may be broken for a reader;
`Taken` says that it is never taken for another value.
-/
namespace CorpusIndex.Json

/-- How a value is laid out. -/
inductive Layout where
  | compact
  | indented (level : Nat)

namespace Layout

def text : Layout → Json → List Char
  | compact => Json.text
  | indented level => Json.indented level

/-- The layout inside brackets. -/
def inner : Layout → Layout
  | compact => compact
  | indented level => indented (level + 1)

/-- What stands before an item, a field or a closing bracket. -/
def start : Layout → List Char
  | compact => []
  | indented level => newline level

/-- What stands after a colon. -/
def gap : Layout → List Char
  | compact => []
  | indented _ => [' ']

end Layout

/-- Texts with commas between them, each after a start. -/
def listed (start : List Char) : List (List Char) → List Char
  | [] => []
  | [t] => start ++ t
  | t :: rest => start ++ (t ++ ',' :: listed start rest)

namespace Layout

def items (l : Layout) (js : List Json) : List Char := listed l.start (js.map l.text)

def field (l : Layout) (f : String × Json) : List Char := quoted f.1 ++ ':' :: (l.gap ++ l.text f.2)

def fields (l : Layout) (fs : List (String × Json)) : List Char := listed l.start (fs.map l.field)

end Layout

variable {sure : Prop} {depth fuel : Nat} {shape : Shape} {l close : Layout} {j : Json} {js seen : List Json}
  {s t rest : List Char}

/-- The value is read off the start of its text. -/
def Legible (depth : Nat) (shape : Shape) (j : Json) : Prop :=
  ∀ (l : Layout) rest, Follows rest → value depth shape (l.text j ++ rest) = .complete j rest

/-- The value `j` is taken and `rest` is left, or, unless that is sure, the text is broken. -/
def Reading.Takes (sure : Prop) (j : Json) (rest : List Char) (r : Reading) : Prop :=
  r = .complete j rest ∨ ¬ sure ∧ ∃ parts, r = .broken parts

/-- The text of the value does not start like an empty list, and no other value is taken off it. -/
structure Taken (sure : Prop) (depth : Nat) (shape : Shape) (j : Json) : Prop where
  opens : ∀ (l : Layout) rest, Follows rest → ∃ c t, skipBlanks (l.text j ++ rest) = c :: t ∧ c ≠ ']'
  takes : ∀ (l : Layout) rest, Follows rest → (value depth shape (l.text j ++ rest)).Takes sure j rest

attribute [grind =] value

/-- Blanks before a value do not count. -/
theorem value_congr (h : skipBlanks s = skipBlanks t) : value depth shape s = value depth shape t := by
  grind

/-! ### Layouts -/

theorem length_le_listed (start : List Char) (ts : List (List Char)) :
    ts.length ≤ (listed start ts).length + 1 := by
  induction ts with
  | nil => simp
  | cons t ts ih =>
      cases ts with
      | nil => simp
      | cons u ts =>
          have hlist : listed start (t :: u :: ts) = start ++ (t ++ ',' :: listed start (u :: ts)) := rfl
          simp only [hlist, List.length_append, List.length_cons] at ih ⊢
          omega

namespace Layout

theorem skipBlanks_start (l : Layout) (s : List Char) : skipBlanks (l.start ++ s) = skipBlanks s := by
  cases l with
  | compact => rfl
  | indented level => exact skipBlanks_newline level s

theorem skipBlanks_gap (l : Layout) (s : List Char) : skipBlanks (l.gap ++ s) = skipBlanks s := by
  cases l <;> rfl

theorem follows_bracket (l : Layout) (rest : List Char) : Follows (l.start ++ ']' :: rest) := by
  cases l with
  | compact => exact Json.follows_bracket
  | indented level => exact follows_newline level _

theorem follows_brace (l : Layout) (rest : List Char) : Follows (l.start ++ '\x7d' :: rest) := by
  cases l with
  | compact => exact Json.follows_brace
  | indented level => exact follows_newline level _

theorem itemTexts_eq (js : List Json) : itemTexts js = compact.items js := by
  induction js with
  | nil => rfl
  | cons j js ih =>
      cases js with
      | nil => rfl
      | cons k js =>
          rw [itemTexts, ih]
          · rfl
          · simp

theorem fieldTexts_eq (fs : List (String × Json)) : fieldTexts fs = compact.fields fs := by
  induction fs with
  | nil => rfl
  | cons f fs ih =>
      cases fs with
      | nil => rfl
      | cons g fs =>
          rw [fieldTexts, ih]
          · simp [fields, listed, field, gap, text, start]
          · simp

theorem indentedItems_eq (level : Nat) (js : List Json) :
    Json.indentedItems level js = (indented level).items js := by
  induction js with
  | nil => rfl
  | cons j js ih =>
      cases js with
      | nil => rfl
      | cons k js =>
          rw [indentedItems, ih]
          · rfl
          · simp

theorem indentedFields_eq (level : Nat) (fs : List (String × Json)) :
    Json.indentedFields level fs = (indented level).fields fs := by
  induction fs with
  | nil => rfl
  | cons f fs ih =>
      cases fs with
      | nil => rfl
      | cons g fs =>
          rw [indentedFields, ih]
          · simp [fields, listed, field, gap, text, start]
          · simp

theorem text_array (l : Layout) (j : Json) (js : List Json) :
    l.text (.array (j :: js)) = '[' :: (l.inner.items (j :: js) ++ (l.start ++ [']'])) := by
  cases l with
  | compact => simp [text, Json.text, itemTexts_eq, inner, start]
  | indented level => simp [text, Json.indented, indentedItems_eq, inner, start]

theorem text_object (l : Layout) (f : String × Json) (fs : List (String × Json)) :
    l.text (.object (f :: fs)) = '\x7b' :: (l.inner.fields (f :: fs) ++ (l.start ++ ['\x7d'])) := by
  cases l with
  | compact => simp [text, Json.text, fieldTexts_eq, inner, start]
  | indented level => simp [text, Json.indented, indentedFields_eq, inner, start]

end Layout

/-! ### Numbers -/

theorem head_of_literal? {l : Literal} {r : List Char} (h : literal? s = some (l, r)) :
    ∃ c t, s = c :: t ∧ (c = '-' ∨ Decimal.isDigit c = true) := by
  cases s with
  | nil => cases h
  | cons c t =>
      refine ⟨c, t, rfl, ?_⟩
      by_contra hc
      obtain ⟨hminus, hdigit⟩ := not_or.mp hc
      have hnone : literal? (c :: t) = none := by
        simp [literal?, minus_of_ne hminus, hdigit]
      rw [hnone] at h
      cases h

theorem skipBlanks_of_digit {c : Char} (hc : c = '-' ∨ Decimal.isDigit c = true) :
    skipBlanks (c :: s) = c :: s := by
  have hblank : ¬ (c == ' ' || c == '\n' || c == '\t' || c == '\r') = true := by
    intro h
    simp only [Bool.or_eq_true, beq_iff_eq] at h
    rcases h with ((rfl | rfl) | rfl) | rfl <;> exact absurd hc (by decide)
  exact List.dropWhile_cons_of_neg hblank

/-- A text that starts like a number is read as one. -/
theorem value_of_digit {c : Char} (hc : c = '-' ∨ Decimal.isDigit c = true) :
    value depth shape (c :: s) = readNumber (c :: s) := by
  rw [value, skipBlanks_of_digit hc]
  -- no other kind of value starts like a number
  split
  next h => cases h
  all_goals next h => first
    | rfl
    | (cases h; exact absurd hc (by decide))

theorem Legible.number {literal : List Char} {v : NumberValue} (h : numberValue? literal = some v) :
    Legible depth shape (.number literal) := by
  intro l rest hrest
  have htext : l.text (.number literal) = literal := by cases l <;> rfl
  rw [htext]
  unfold numberValue? at h
  split at h
  next v hv =>
    obtain ⟨c, t, rfl, hc⟩ := head_of_literal? hv
    have hread : readNumber (c :: t ++ rest) = .complete (.number (c :: t)) rest := by
      have htake : (c :: t ++ rest).take ((c :: t ++ rest).length - rest.length) = c :: t := by
        rw [List.length_append, Nat.add_sub_cancel]
        exact List.take_left
      simp only [readNumber, literal?_append hrest hv, h, Option.isSome_some, if_true, htake]
    exact (value_of_digit hc).trans hread
  next => cases h

/-! ### Words and strings -/

theorem Legible.null : Legible depth shape .null := by
  intro l rest _
  rw [value]
  cases l <;> rfl

theorem Legible.bool (b : Bool) : Legible depth shape (.bool b) := by
  intro l rest _
  rw [value]
  cases l <;> cases b <;> rfl

theorem Legible.string (s : String) : Legible depth shape (.string s) := by
  intro l rest _
  obtain ⟨body, hquoted, hbody⟩ := stringRest_quoted s rest
  have htext : l.text (.string s) ++ rest = '"' :: body := by cases l <;> exact hquoted
  have hstart : skipBlanks ('"' :: body) = '"' :: body := rfl
  rw [htext, value, hstart]
  simp only [hbody]
  rfl

/-! ### Values that are not misread -/

/-- A value never starts with a closing bracket. -/
theorem Legible.opens (h : Legible depth shape j) (l : Layout) (hrest : Follows rest) :
    ∃ c t, skipBlanks (l.text j ++ rest) = c :: t ∧ c ≠ ']' := by
  have hread := h l rest hrest
  rw [value] at hread
  cases hstart : skipBlanks (l.text j ++ rest) with
  | nil =>
      rw [hstart] at hread
      cases hread
  | cons c t =>
      refine ⟨c, t, rfl, ?_⟩
      rintro rfl
      rw [hstart] at hread
      cases hread

theorem Legible.taken (h : Legible depth shape j) : Taken sure depth shape j :=
  ⟨fun l _ hrest => h.opens l hrest, fun l rest hrest => .inl (h l rest hrest)⟩

theorem Taken.legible (h : Taken True depth shape j) : Legible depth shape j :=
  fun l rest hrest => (h.takes l rest hrest).resolve_right fun hbroken => hbroken.1 trivial

theorem Reading.Takes.keepParts {r : Reading} (h : r.Takes sure j rest) (keep : Bool) :
    (r.keepParts keep).Takes sure j rest := by
  rcases h with rfl | ⟨hsure, parts, rfl⟩
  · exact .inl rfl
  · exact .inr ⟨hsure, _, rfl⟩

/-- A number that may be out of range. -/
theorem Taken.number {literal : List Char} (h : NumberText literal) :
    Taken False depth shape (.number literal) := by
  have htext (l : Layout) : l.text (.number literal) = literal := by cases l <;> rfl
  obtain ⟨c, t, rfl, hc⟩ := h.head
  refine ⟨fun l rest _ => ?_, fun l rest hrest => ?_⟩
  · refine ⟨c, t ++ rest, by rw [htext, List.cons_append, skipBlanks_of_digit hc], ?_⟩
    rintro rfl
    exact absurd hc (by decide)
  · rw [htext, List.cons_append, value_of_digit hc, ← List.cons_append, readNumber]
    split
    next => exact .inr ⟨id, none, rfl⟩
    next l r hl =>
      obtain rfl := h.ends hrest hl
      split
      next =>
        refine .inl ?_
        rw [List.length_append, Nat.add_sub_cancel, List.take_left]
      next => exact .inr ⟨id, none, rfl⟩

/-! ### Arrays -/

theorem skipBlanks_append (a : List Char) (h : skipBlanks t = t) : skipBlanks (a ++ t) = skipBlanks a ++ t := by
  have hdrop : t.dropWhile (fun c => c == ' ' || c == '\n' || c == '\t' || c == '\r') = t := h
  rw [skipBlanks, List.dropWhile_append, hdrop]
  split
  next hnil => rw [skipBlanks, List.isEmpty_iff.mp hnil, List.nil_append]
  next => rfl

theorem skipBlanks_items_cons (l : Layout) (j k : Json) (js : List Json) (t : List Char) :
    skipBlanks (l.items (j :: k :: js) ++ t) = skipBlanks (l.text j ++ ',' :: (l.items (k :: js) ++ t)) := by
  have hitems : l.items (j :: k :: js) = l.start ++ (l.text j ++ ',' :: l.items (k :: js)) := rfl
  rw [hitems, List.append_assoc, l.skipBlanks_start, List.append_assoc]
  rfl

theorem skipBlanks_items_singleton (l : Layout) (j : Json) (t : List Char) :
    skipBlanks (l.items [j] ++ t) = skipBlanks (l.text j ++ t) := by
  have hitems : l.items [j] = l.start ++ l.text j := rfl
  rw [hitems, List.append_assoc, l.skipBlanks_start]

/-- Items are read one after another by a reader that takes each of them. -/
theorem items_read {item : Nat → List Char → Reading} (hne : js ≠ [])
    (hitem : ∀ n j, js[n]? = some j → ∀ s t, Follows t →
      skipBlanks s = skipBlanks (l.text j ++ t) → (item (seen.length + n) s).Takes sure j t)
    (hs : skipBlanks s = skipBlanks (l.items js ++ (close.start ++ ']' :: rest)))
    (hfuel : js.length ≤ fuel) :
    (items item fuel seen s).Takes sure (.array (seen.reverse ++ js)) rest := by
  induction js generalizing seen fuel s with
  | nil => exact absurd rfl hne
  | cons j js ih =>
      cases fuel with
      | zero => exact absurd hfuel (by simp)
      | succ fuel =>
          cases js with
          | nil =>
              have hj : (item seen.length s).Takes sure j (close.start ++ ']' :: rest) := by
                exact hitem 0 j rfl s _ (close.follows_bracket _) (hs.trans (skipBlanks_items_singleton _ _ _))
              have hclose : skipBlanks (close.start ++ ']' :: rest) = ']' :: rest := by
                rw [close.skipBlanks_start]
                rfl
              rw [items]
              rcases hj with hj | ⟨hsure, parts, hj⟩
              · refine .inl ?_
                rw [hj]
                simp only [hclose, List.reverse_cons]
              · exact .inr ⟨hsure, _, by rw [hj]⟩
          | cons k js =>
              have hj : (item seen.length s).Takes sure j
                  (',' :: (l.items (k :: js) ++ (close.start ++ ']' :: rest))) := by
                exact hitem 0 j rfl s _ follows_comma (hs.trans (skipBlanks_items_cons _ _ _ _ _))
              have hcomma (t : List Char) : skipBlanks (',' :: t) = ',' :: t := rfl
              have hrest : (items item fuel (j :: seen)
                  (l.items (k :: js) ++ (close.start ++ ']' :: rest))).Takes sure
                    (.array ((j :: seen).reverse ++ k :: js)) rest := by
                refine ih (by simp) (fun n i hi s t ht hst => ?_) rfl (by simpa using hfuel)
                have := hitem (n + 1) i hi s t ht hst
                rwa [← Nat.add_assoc, Nat.add_right_comm] at this
              rw [items]
              rcases hj with hj | ⟨hsure, parts, hj⟩
              · rw [hj]
                simpa only [hcomma, List.reverse_cons, List.append_assoc, List.singleton_append] using hrest
              · exact .inr ⟨hsure, _, by rw [hj]⟩

/-- Without the blanks before it, too, the text is longer than the number of commas in it. -/
theorem length_le_skipBlanks (l : Layout) (j : Json) (js : List Json) (t : List Char) :
    js.length ≤ (skipBlanks (l.items (j :: js) ++ t)).length := by
  cases js with
  | nil => exact Nat.zero_le _
  | cons k js =>
      have hrest : (k :: js).length ≤ (l.items (k :: js)).length + 1 := by
        simpa [Layout.items] using length_le_listed l.start ((k :: js).map l.text)
      rw [skipBlanks_items_cons, skipBlanks_append _ rfl]
      simp only [List.length_append, List.length_cons] at hrest ⊢
      omega

theorem Taken.array (h : ∀ n j, js[n]? = some j → Taken sure depth (shape.item n) j) :
    Taken sure (depth + 1) shape (.array js) := by
  refine ⟨fun l rest _ => ?_, fun l rest hrest => ?_⟩
  · cases js with
    | nil => cases l <;> exact ⟨'[', _, rfl, by decide⟩
    | cons j js =>
        rw [l.text_array]
        exact ⟨'[', _, rfl, by decide⟩
  cases js with
  | nil =>
      refine .inl ?_
      rw [value]
      cases l <;> rfl
  | cons j js =>
      let tail := l.start ++ ']' :: rest
      have htext : l.text (.array (j :: js)) ++ rest = '[' :: (l.inner.items (j :: js) ++ tail) := by
        simp [l.text_array, tail]
      have hstart (t : List Char) : skipBlanks ('[' :: t) = '[' :: t := rfl
      obtain ⟨c, t, hc, hopen⟩ : ∃ c t,
          skipBlanks (l.inner.items (j :: js) ++ tail) = c :: t ∧ c ≠ ']' := by
        cases js with
        | nil =>
            rw [skipBlanks_items_singleton]
            exact (h 0 j rfl).opens l.inner _ (l.follows_bracket rest)
        | cons k js =>
            rw [skipBlanks_items_cons]
            exact (h 0 j rfl).opens l.inner _ follows_comma
      have hitem : ∀ n i, (j :: js)[n]? = some i → ∀ s t, Follows t →
          skipBlanks s = skipBlanks (l.inner.text i ++ t) →
            (value depth (shape.item (([] : List Json).length + n)) s).Takes sure i t := by
        intro n i hi s t ht hst
        rw [List.length_nil, Nat.zero_add, value_congr hst]
        exact (h n i hi).takes _ t ht
      have hsame : skipBlanks (c :: t) = skipBlanks (l.inner.items (j :: js) ++ tail) := by
        rw [← hc]
        exact List.dropWhile_idempotent _ _
      have hfuel : (j :: js).length ≤ (c :: t).length + 1 := by
        have hlen := length_le_skipBlanks l.inner j js tail
        rw [hc] at hlen
        simp only [List.length_cons] at hlen ⊢
        omega
      have hread : (items (fun n => value depth (shape.item n)) ((c :: t).length + 1) [] (c :: t)).Takes sure
          (.array (j :: js)) rest := items_read (by simp) hitem hsame hfuel
      rw [htext, value, hstart]
      simp only [hc]
      split
      next heq => exact absurd (List.cons.inj heq).1 hopen
      next => exact hread.keepParts _

theorem Legible.array (h : ∀ n j, js[n]? = some j → Legible depth (shape.item n) j) :
    Legible (depth + 1) shape (.array js) := (Taken.array fun n j hj => (h n j hj).taken).legible

/-! ### Objects -/

variable {fs kept : List (String × Json)}

/-- A field is read off its text, whatever the rest of the text is. -/
theorem stringRest_field (l : Layout) (k : String) (j : Json) (t : List Char) :
    ∃ body, skipBlanks (l.start ++ (l.field (k, j) ++ t)) = '"' :: body ∧
      stringRest [] body = some (k, ':' :: (l.gap ++ (l.text j ++ t))) := by
  obtain ⟨body, hquoted, hbody⟩ := stringRest_quoted k (':' :: (l.gap ++ (l.text j ++ t)))
  refine ⟨body, ?_, hbody⟩
  have htext : l.field (k, j) ++ t = quoted k ++ ':' :: (l.gap ++ (l.text j ++ t)) := by
    simp [Layout.field]
  rw [l.skipBlanks_start, htext, hquoted]
  rfl

/-- Fields are read one after another by a reader that takes each of them. -/
theorem fields_read {field : String → List Char → Reading} (hne : fs ≠ [])
    (hfield : ∀ f ∈ fs, ∀ s t, Follows t →
      skipBlanks s = skipBlanks (l.text f.2 ++ t) → (field f.1 s).Takes sure f.2 t)
    (hs : skipBlanks s = skipBlanks (l.fields fs ++ (close.start ++ '\x7d' :: rest)))
    (hfuel : fs.length ≤ fuel) :
    (fields field fuel kept s).Takes sure (.object (kept.reverse ++ fs)) rest := by
  induction fs generalizing kept fuel s with
  | nil => exact absurd rfl hne
  | cons f fs ih =>
      obtain ⟨k, j⟩ := f
      cases fuel with
      | zero => exact absurd hfuel (by simp)
      | succ fuel =>
          have hcolon (t : List Char) : skipBlanks (':' :: t) = ':' :: t := rfl
          cases fs with
          | nil =>
              let tail := close.start ++ '\x7d' :: rest
              obtain ⟨body, hstart, hbody⟩ := stringRest_field l k j tail
              have hj : (field k (l.gap ++ (l.text j ++ tail))).Takes sure j tail :=
                hfield (k, j) (by simp) _ _ (close.follows_brace _) (l.skipBlanks_gap _)
              have hclose : skipBlanks tail = '\x7d' :: rest := by
                rw [close.skipBlanks_start]
                rfl
              have htext : l.fields [(k, j)] ++ tail = l.start ++ (l.field (k, j) ++ tail) :=
                List.append_assoc ..
              rw [fields, hs.trans ((congrArg skipBlanks htext).trans hstart)]
              rcases hj with hj | ⟨hsure, parts, hj⟩
              · exact .inl (by simp only [hbody, hcolon, hj, hclose, List.reverse_cons])
              · exact .inr ⟨hsure, _, by simp only [hbody, hcolon, hj]; rfl⟩
          | cons g fs =>
              let tail := ',' :: (l.fields (g :: fs) ++ (close.start ++ '\x7d' :: rest))
              obtain ⟨body, hstart, hbody⟩ := stringRest_field l k j tail
              have hj : (field k (l.gap ++ (l.text j ++ tail))).Takes sure j tail :=
                hfield (k, j) (by simp) _ _ follows_comma (l.skipBlanks_gap _)
              have hcomma : skipBlanks tail = tail := rfl
              have htext : l.fields ((k, j) :: g :: fs) ++ (close.start ++ '\x7d' :: rest) =
                  l.start ++ (l.field (k, j) ++ tail) := by
                have hfields : l.fields ((k, j) :: g :: fs) =
                    l.start ++ (l.field (k, j) ++ ',' :: l.fields (g :: fs)) := rfl
                simp [hfields, tail]
              have hrest : (fields field fuel ((k, j) :: kept)
                  (l.fields (g :: fs) ++ (close.start ++ '\x7d' :: rest))).Takes sure
                    (.object (((k, j) :: kept).reverse ++ g :: fs)) rest :=
                ih (by simp) (fun f hf => hfield f (by simp [hf])) rfl (by simpa using hfuel)
              rw [fields, hs.trans ((congrArg skipBlanks htext).trans hstart)]
              rcases hj with hj | ⟨hsure, parts, hj⟩
              · simp only [hbody, hcolon, hj, hcomma, tail]
                simpa only [List.reverse_cons, List.append_assoc, List.singleton_append] using hrest
              · exact .inr ⟨hsure, _, by simp only [hbody, hcolon, hj]; rfl⟩

/-- The text of fields starts with the quote of the first name. -/
theorem fields_cons (l : Layout) (f : String × Json) (fs : List (String × Json)) :
    ∃ body, l.fields (f :: fs) = l.start ++ '"' :: body ∧ fs.length ≤ body.length := by
  cases fs with
  | nil => exact ⟨_, rfl, Nat.zero_le _⟩
  | cons g fs =>
      have hrest : (g :: fs).length ≤ (l.fields (g :: fs)).length + 1 := by
        simpa [Layout.fields] using length_le_listed l.start ((g :: fs).map l.field)
      refine ⟨f.1.toList.flatMap escapeChar ++ ['"'] ++
        ':' :: (l.gap ++ (l.text f.2 ++ ',' :: l.fields (g :: fs))), ?_, ?_⟩
      · have hfields : l.fields (f :: g :: fs) =
            l.start ++ (l.field f ++ ',' :: l.fields (g :: fs)) := rfl
        simp [hfields, Layout.field, quoted]
      · simp only [List.length_append, List.length_cons] at hrest ⊢
        omega

theorem Taken.object
    (h : ∀ f ∈ fs, ∃ part, shape.field? f.1 = some part ∧ Taken sure depth part f.2) :
    Taken sure (depth + 1) shape (.object fs) := by
  refine ⟨fun l rest _ => ?_, fun l rest hrest => ?_⟩
  · cases fs with
    | nil => cases l <;> exact ⟨'\x7b', _, rfl, by decide⟩
    | cons f fs =>
        rw [l.text_object]
        exact ⟨'\x7b', _, rfl, by decide⟩
  cases fs with
  | nil =>
      refine .inl ?_
      rw [value]
      cases l <;> rfl
  | cons f fs =>
      let tail := l.start ++ '\x7d' :: rest
      have htext : l.text (.object (f :: fs)) ++ rest = '\x7b' :: (l.inner.fields (f :: fs) ++ tail) := by
        simp [l.text_object, tail]
      have hstart (t : List Char) : skipBlanks ('\x7b' :: t) = '\x7b' :: t := rfl
      obtain ⟨body, hbody, hlen⟩ := fields_cons l.inner f fs
      have hskip : skipBlanks (l.inner.fields (f :: fs) ++ tail) = '"' :: (body ++ tail) := by
        rw [hbody, List.append_assoc, l.inner.skipBlanks_start]
        rfl
      have hsame : skipBlanks ('"' :: (body ++ tail)) = skipBlanks (l.inner.fields (f :: fs) ++ tail) :=
        hskip.symm
      have hfuel : (f :: fs).length ≤ ('"' :: (body ++ tail)).length + 1 := by
        simp only [List.length_cons, List.length_append]
        omega
      rw [htext, value, hstart]
      simp only [hskip]
      refine (fields_read (by simp) (fun g hg s t ht hst => ?_) hsame hfuel).keepParts _
      obtain ⟨part, hpart, htaken⟩ := h g hg
      simp only [hpart, value_congr hst]
      exact htaken.takes _ t ht

theorem Legible.object
    (h : ∀ f ∈ fs, ∃ part, shape.field? f.1 = some part ∧ Legible depth part f.2) :
    Legible (depth + 1) shape (.object fs) := by
  refine Taken.legible (Taken.object fun f hf => ?_)
  obtain ⟨part, hpart, hlegible⟩ := h f hf
  exact ⟨part, hpart, hlegible.taken⟩

/-! ### Texts -/

/-- Whatever is decoded from the text of a value is decoded from the value. -/
theorem item_of_decodeText {α : Type} {item : Json → Decoded α} {a : α} (h : Taken sure maxDepth shape j)
    (l : Layout) (ha : decodeText shape item (String.ofList (l.text j)) = .ok a) : item j = .ok a := by
  have htext := h.takes l [] follows_nil
  rw [List.append_nil, ← String.toList_ofList (l := l.text j)] at htext
  unfold decodeText at ha
  rcases htext with htext | ⟨_, parts, htext⟩
  · rw [htext] at ha
    obtain ⟨b, hb, hrest⟩ := bind_eq_ok.mp ha
    cases hrest
    exact hb
  · rw [htext] at ha
    cases parts with
    | none => cases ha
    | some j =>
        obtain ⟨_, _, hrest⟩ := bind_eq_ok.mp ha
        cases hrest

/-- A legible value whose decoder succeeds is decoded from its text, whatever the layout. -/
theorem decodeText_layout {α : Type} {item : Json → Decoded α} {a : α} (h : Legible maxDepth shape j)
    (hitem : item j = .ok a) (l : Layout) : decodeText shape item (String.ofList (l.text j)) = .ok a := by
  have hread : value maxDepth shape (String.ofList (l.text j)).toList = .complete j [] := by
    have htext := h l [] follows_nil
    rwa [List.append_nil, ← String.toList_ofList (l := l.text j)] at htext
  simp only [decodeText, hread, hitem]
  rfl

theorem decodeText_pretty {α : Type} {item : Json → Decoded α} {a : α} (h : Legible maxDepth shape j)
    (hitem : item j = .ok a) : decodeText shape item j.pretty = .ok a :=
  decodeText_layout h hitem (.indented 0)

theorem decodeText_compact {α : Type} {item : Json → Decoded α} {a : α} (h : Legible maxDepth shape j)
    (hitem : item j = .ok a) : decodeText shape item j.compact = .ok a := decodeText_layout h hitem .compact

end CorpusIndex.Json
