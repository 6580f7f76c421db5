import CorpusIndex.Collaborator
import Mathlib.Data.List.Infix
import Mathlib.Data.List.Nodup
import Mathlib.Data.List.Perm.Subperm
import Mathlib.Tactic.LinearCombination
import Mathlib.Tactic.Zify

/-!
# Filling in a prompt

The text of a prompt is made by one replacement after another, so a value may bring along what the next
replacement takes for a place. It is compared with the template filled in a single pass, in which no value is
looked at. Places of names without braces do not overlap; what a replacement does is therefore said between two
places at a time.
-/
namespace CorpusIndex.Prompt

variable {bs bs' ws : List (String × String)} {v w : String × String} {m n : String} {c : Char}
  {a r s t : List Char}

/-! ### Variables and their places -/

/-- Neither brace occurs in the name. -/
def Braceless (name : String) : Prop := '\x7b' ∉ name.toList ∧ '\x7d' ∉ name.toList

instance (name : String) : Decidable (Braceless name) :=
  inferInstanceAs (Decidable ('\x7b' ∉ name.toList ∧ '\x7d' ∉ name.toList))

/-- The names of the variables are pairwise distinct and without braces. -/
structure Plain (bs : List (String × String)) : Prop where
  distinct : (bs.map (·.1)).Nodup
  braceless : ∀ v ∈ bs, Braceless v.1

theorem Plain.sublist (h : Plain bs) (hs : bs'.Sublist bs) : Plain bs' :=
  ⟨h.distinct.sublist (hs.map _), fun w hw => h.braceless w (hs.subset hw)⟩

theorem Plain.perm (h : Plain bs) (hp : bs'.Perm bs) : Plain bs' :=
  ⟨(hp.map _).nodup_iff.mpr h.distinct, fun w hw => h.braceless w (hp.subset hw)⟩

theorem Plain.subperm (h : Plain bs) (hs : bs'.Subperm bs) : Plain bs' := by
  obtain ⟨l, hl, hsub⟩ := hs
  exact (h.sublist hsub).perm hl.symm

theorem Plain.head (h : Plain (v :: bs)) : Braceless v.1 := h.braceless v List.mem_cons_self

theorem Plain.tail (h : Plain (v :: bs)) : Plain bs := h.sublist (List.sublist_cons_self v bs)

theorem Plain.single (h : Plain (v :: bs)) : Plain [v] :=
  h.sublist (List.Sublist.cons_cons v (List.nil_sublist bs))

theorem Plain.not_mem (h : Plain (v :: bs)) : v.1 ∉ bs.map (·.1) := (List.nodup_cons.mp h.distinct).1

theorem place_append (n : String) (r : List Char) :
    place n ++ r = '\x7b' :: ((n.toList ++ ['\x7d']) ++ r) := rfl

theorem Braceless.no_open (h : Braceless n) : '\x7b' ∉ n.toList ++ ['\x7d'] := by
  simp [h.1]

theorem Braceless.takeWhile (h : Braceless n) (r : List Char) :
    (n.toList ++ ('\x7d' :: r)).takeWhile (· ≠ '\x7d') = n.toList := by
  rw [List.takeWhile_append_of_pos fun c hc => by simpa using ne_of_mem_of_not_mem hc h.2,
    List.takeWhile_cons_of_neg (by simp), List.append_nil]

/-- A place tells which variable it is of. -/
theorem eq_of_place_starts (hm : Braceless m) (hn : Braceless n) (h : place m <+: place n ++ r) : m = n := by
  obtain ⟨x, hx⟩ := h
  simp only [place, List.cons_append, List.append_assoc, List.cons.injEq, true_and, List.nil_append] at hx
  rw [← String.toList_inj, ← hm.takeWhile x, hx, hn.takeWhile r]

theorem not_place_prefix_of_ne (h : c ≠ '\x7b') : ¬ place n <+: c :: s := by
  rintro ⟨x, hx⟩
  exact h (List.cons.inj hx).1.symm

/-- No place goes on where a brace opens. -/
theorem place_prefix_append_open (hn : Braceless n) :
    place n <+: (c :: a) ++ '\x7b' :: r ↔ place n <+: c :: a := by
  refine ⟨?_, fun h => h.trans (List.prefix_append _ _)⟩
  rintro ⟨x, hx⟩
  rcases List.append_eq_append_iff.mp hx with ⟨y, hy, -⟩ | ⟨y, hy, hr⟩
  · exact ⟨y, hy.symm⟩
  · cases y with
    | nil => exact ⟨[], by rw [hy]; simp⟩
    | cons d y =>
        obtain ⟨rfl, -⟩ := List.cons.inj hr
        have hopen : n.toList ++ ['\x7d'] = a ++ '\x7b' :: y := (List.cons.inj hy).2
        exact (hn.no_open (hopen ▸ List.mem_append_right a List.mem_cons_self)).elim

/-! ### One pass -/

/-- The variable whose place the text starts with. -/
def placed? (bs : List (String × String)) (s : List Char) : Option (String × String) :=
  bs.find? (fun v => (place v.1).isPrefixOf s)

/-- Filling in with `skip` characters of a place still to be passed over. -/
def fillFrom (bs : List (String × String)) : (skip : Nat) → List Char → List Char
  | _, [] => []
  | skip + 1, _ :: s => fillFrom bs skip s
  | 0, c :: s =>
    match placed? bs (c :: s) with
    | some v => v.2.toList ++ fillFrom bs ((place v.1).length - 1) s
    | none => c :: fillFrom bs 0 s

/-- All variables put into their places in one pass over the text. -/
def fill (bs : List (String × String)) (s : List Char) : List Char := fillFrom bs 0 s

theorem placed?_eq_none : placed? bs s = none ↔ ∀ v ∈ bs, ¬ place v.1 <+: s := by
  simp [placed?, List.find?_eq_none]

theorem placed?_eq_some (h : Plain bs) : placed? bs s = some v ↔ v ∈ bs ∧ place v.1 <+: s := by
  have hsound (w : String × String) (hw : placed? bs s = some w) : w ∈ bs ∧ place w.1 <+: s :=
    ⟨List.mem_of_find?_eq_some hw, by simpa using List.find?_some hw⟩
  refine ⟨hsound v, fun ⟨hv, hstarts⟩ => ?_⟩
  cases hw : placed? bs s with
  | none => exact (placed?_eq_none.mp hw v hv hstarts).elim
  | some w =>
      obtain ⟨hmem, hother⟩ := hsound w hw
      obtain ⟨r, rfl⟩ := hstarts
      have hname : w.1 = v.1 := eq_of_place_starts (h.braceless w hmem) (h.braceless v hv) hother
      rw [List.inj_on_of_nodup_map h.distinct hmem hv hname]

theorem placed?_congr (h : Plain bs) (h' : Plain bs')
    (hsame : ∀ v, v ∈ bs' ∧ place v.1 <+: t ↔ v ∈ bs ∧ place v.1 <+: s) : placed? bs' t = placed? bs s :=
  Option.ext fun v => by rw [placed?_eq_some h', placed?_eq_some h, hsame]

theorem fillFrom_eq (bs : List (String × String)) (skip : Nat) (s : List Char) :
    fillFrom bs skip s = fill bs (s.drop skip) := by
  induction skip generalizing s with
  | zero => rfl
  | succ skip ih =>
      cases s with
      | nil => rfl
      | cons c s => exact ih s

theorem fill_cons_of_not_placed (h : ∀ v ∈ bs, ¬ place v.1 <+: c :: s) :
    fill bs (c :: s) = c :: fill bs s := by
  rw [fill, fillFrom, placed?_eq_none.mpr h]
  rfl

/-- The place of a variable gives way to its value. -/
theorem fill_place (h : Plain bs) (hv : v ∈ bs) (r : List Char) :
    fill bs (place v.1 ++ r) = v.2.toList ++ fill bs r := by
  have hplaced : placed? bs (place v.1 ++ r) = some v :=
    (placed?_eq_some h).mpr ⟨hv, List.prefix_append _ r⟩
  rw [place_append] at hplaced ⊢
  rw [fill, fillFrom, hplaced]
  simp [fillFrom_eq, place]

/-- What has no opening brace is copied. -/
theorem fill_append_of_no_open (h : '\x7b' ∉ a) (bs : List (String × String)) (r : List Char) :
    fill bs (a ++ r) = a ++ fill bs r := by
  induction a with
  | nil => rfl
  | cons c a ih =>
      obtain ⟨hc, ha⟩ := not_or.mp (mt List.mem_cons.mpr h)
      rw [List.cons_append, fill_cons_of_not_placed fun v _ => not_place_prefix_of_ne (Ne.symm hc), ih ha,
        List.cons_append]

/-- The place of an unknown variable stays. -/
theorem fill_place_of_not_mem (h : Plain bs) (hn : Braceless n) (hnot : n ∉ bs.map (·.1)) (r : List Char) :
    fill bs (place n ++ r) = place n ++ fill bs r := by
  have hno (v : String × String) (hv : v ∈ bs) : ¬ place v.1 <+: place n ++ r := fun hstarts =>
    hnot (eq_of_place_starts (h.braceless v hv) hn hstarts ▸ List.mem_map_of_mem hv)
  rw [place_append] at hno ⊢
  rw [fill_cons_of_not_placed hno, fill_append_of_no_open hn.no_open, place_append]

/-- A text is filled in up to an opening brace and from there on its own. -/
theorem fillFrom_append_open (h : Plain bs) (r : List Char) {skip : Nat} (hskip : skip ≤ a.length) :
    fillFrom bs skip (a ++ '\x7b' :: r) = fillFrom bs skip a ++ fill bs ('\x7b' :: r) := by
  induction a generalizing skip with
  | nil =>
      obtain rfl := Nat.le_zero.mp hskip
      rfl
  | cons c a ih =>
      cases skip with
      | succ skip => exact ih (Nat.le_of_succ_le_succ hskip)
      | zero =>
          have hplaced : placed? bs (c :: (a ++ '\x7b' :: r)) = placed? bs (c :: a) :=
            placed?_congr h h fun v =>
              and_congr_right fun hv => place_prefix_append_open (h.braceless v hv)
          rw [List.cons_append, fillFrom, fillFrom, hplaced]
          cases hv : placed? bs (c :: a) with
          | none => exact congrArg (c :: ·) (ih (Nat.zero_le _))
          | some v =>
              have hlength := ((placed?_eq_some h).mp hv).2.length_le
              rw [List.length_cons] at hlength
              change _ ++ fillFrom bs _ _ = (_ ++ fillFrom bs _ a) ++ _
              rw [ih (by omega), List.append_assoc]

theorem fill_append_place (h : Plain bs) (a : List Char) (n : String) (r : List Char) :
    fill bs (a ++ (place n ++ r)) = fill bs a ++ fill bs (place n ++ r) :=
  fillFrom_append_open h _ (Nat.zero_le _)

/-- Two passes agree that find the same places. -/
theorem fill_congr (hsame : ∀ t, t <:+ s → placed? bs' t = placed? bs t) : fill bs' s = fill bs s := by
  suffices hfrom : ∀ skip, fillFrom bs' skip s = fillFrom bs skip s from hfrom 0
  intro skip
  induction s generalizing skip with
  | nil => cases skip <;> rfl
  | cons c s ih =>
      have hrest := ih fun t ht => hsame t (ht.trans (List.suffix_cons c s))
      cases skip with
      | succ skip => exact hrest skip
      | zero =>
          rw [fillFrom, fillFrom, hsame (c :: s) List.suffix_rfl]
          simp only [hrest]

/-- The order of the variables does not matter to a single pass. -/
theorem fill_perm (h : Plain bs) (hp : bs'.Perm bs) (s : List Char) : fill bs' s = fill bs s :=
  fill_congr fun _ _ => placed?_congr h (h.perm hp) fun _ => and_congr_left' hp.mem_iff

theorem fill_nil_bindings (s : List Char) : fill [] s = s := by
  induction s with
  | nil => rfl
  | cons c s ih => rw [fill_cons_of_not_placed fun _ hv => absurd hv List.not_mem_nil, ih]

/-! ### Counting places -/

/-- How often the text has `p`, a text that does not overlap with itself. -/
def occurrences (p : List Char) : List Char → Nat
  | [] => 0
  | c :: s => (if p.isPrefixOf (c :: s) then 1 else 0) + occurrences p s

theorem occurrences_cons (p : List Char) (c : Char) (s : List Char) :
    occurrences p (c :: s) = (if p <+: c :: s then 1 else 0) + occurrences p s := by
  simp only [occurrences, List.isPrefixOf_iff_prefix]

theorem occurrences_append_of_no_open (h : '\x7b' ∉ a) (n : String) (r : List Char) :
    occurrences (place n) (a ++ r) = occurrences (place n) r := by
  induction a with
  | nil => rfl
  | cons c a ih =>
      obtain ⟨hc, ha⟩ := not_or.mp (mt List.mem_cons.mpr h)
      rw [List.cons_append, occurrences_cons, if_neg (not_place_prefix_of_ne (Ne.symm hc)), ih ha, Nat.zero_add]

theorem occurrences_append_open (hn : Braceless n) (a r : List Char) :
    occurrences (place n) (a ++ '\x7b' :: r) =
      occurrences (place n) a + occurrences (place n) ('\x7b' :: r) := by
  induction a with
  | nil => simp [occurrences]
  | cons c a ih =>
      rw [List.cons_append, occurrences_cons, occurrences_cons, ih, ← List.cons_append,
        if_congr (place_prefix_append_open hn) rfl rfl, Nat.add_assoc]

theorem occurrences_append_place (hn : Braceless n) (a r : List Char) :
    occurrences (place n) (a ++ (place n ++ r)) =
      occurrences (place n) a + (1 + occurrences (place n) r) := by
  have hhere : place n <+: '\x7b' :: ((n.toList ++ ['\x7d']) ++ r) := List.prefix_append (place n) r
  rw [place_append, occurrences_append_open hn, occurrences_cons, if_pos hhere,
    occurrences_append_of_no_open hn.no_open]

theorem occurrences_append_other (hm : Braceless m) (hn : Braceless n) (hne : m ≠ n) (a r : List Char) :
    occurrences (place n) (a ++ (place m ++ r)) = occurrences (place n) a + occurrences (place n) r := by
  have hhere : ¬ place n <+: '\x7b' :: ((m.toList ++ ['\x7d']) ++ r) := fun h =>
    hne (eq_of_place_starts hn hm h).symm
  rw [place_append, occurrences_append_open hn, occurrences_cons, if_neg hhere, Nat.zero_add,
    occurrences_append_of_no_open hm.no_open]

theorem occurrences_add_le (p a r : List Char) : occurrences p a + occurrences p r ≤ occurrences p (a ++ r) := by
  induction a with
  | nil => simp [occurrences]
  | cons c a ih =>
      have hhere : (if p <+: c :: a then 1 else 0) ≤ if p <+: c :: (a ++ r) then 1 else 0 := by
        split
        next h => rw [if_pos (show p <+: c :: (a ++ r) from h.trans (List.prefix_append (c :: a) r))]
        next => exact Nat.zero_le _
      rw [List.cons_append, occurrences_cons, occurrences_cons]
      omega

/-- Where a text has no place of a variable, none starts. -/
theorem not_place_prefix_of_free (hn : Braceless n) (ha : occurrences (place n) a = 0) (ht : t <:+ a) :
    ¬ place n <+: t := by
  rintro ⟨r, rfl⟩
  obtain ⟨x, rfl⟩ := ht
  rw [occurrences_append_place hn] at ha
  omega

/-- A text with an occurrence has a first one. -/
theorem exists_first (h : occurrences (place n) s ≠ 0) :
    ∃ a r, s = a ++ (place n ++ r) ∧ occurrences (place n) a = 0 := by
  induction s with
  | nil => exact (h rfl).elim
  | cons c s ih =>
      by_cases hhere : place n <+: c :: s
      · obtain ⟨r, hr⟩ := hhere
        exact ⟨[], r, hr.symm, rfl⟩
      · rw [occurrences_cons, if_neg hhere, Nat.zero_add] at h
        obtain ⟨a, r, rfl, ha⟩ := ih h
        refine ⟨c :: a, r, rfl, ?_⟩
        rw [occurrences_cons, if_neg fun hstart => hhere (hstart.trans (List.prefix_append (c :: a) _)), ha]

/-- Induction over the places of one variable: up to the first place of it a text has none. -/
theorem place_induction (hn : Braceless n) {P : List Char → Prop}
    (free : ∀ s, occurrences (place n) s = 0 → P s)
    (next : ∀ a r, occurrences (place n) a = 0 → P r → P (a ++ (place n ++ r))) (s : List Char) : P s := by
  induction hk : occurrences (place n) s generalizing s with
  | zero => exact free s hk
  | succ k ih =>
      obtain ⟨a, r, rfl, ha⟩ := exists_first (hk.trans_ne (Nat.succ_ne_zero k))
      rw [occurrences_append_place hn, ha] at hk
      exact next a r ha (ih r (by omega))

/-! ### A variable more -/

theorem fill_append_place_mem (h : Plain bs) (hv : v ∈ bs) (a r : List Char) :
    fill bs (a ++ (place v.1 ++ r)) = fill bs a ++ (v.2.toList ++ fill bs r) := by
  rw [fill_append_place h, fill_place h hv]

theorem fill_append_place_not_mem (h : Plain bs) (hn : Braceless n) (hnot : n ∉ bs.map (·.1))
    (a r : List Char) : fill bs (a ++ (place n ++ r)) = fill bs a ++ (place n ++ fill bs r) := by
  rw [fill_append_place h, fill_place_of_not_mem h hn hnot]

/-- A variable whose place the text does not have does nothing. -/
theorem fill_cons_of_free (h : Plain (v :: bs)) (ha : occurrences (place v.1) a = 0) :
    fill (v :: bs) a = fill bs a := by
  refine fill_congr fun t ht => placed?_congr h.tail h fun w => and_congr_left fun hstarts => ?_
  refine ⟨fun hw => (List.mem_cons.mp hw).resolve_left ?_, List.mem_cons_of_mem v⟩
  rintro rfl
  exact not_place_prefix_of_free h.head ha ht hstarts

/-- Up to the first place of a variable the others are filled in, from its value on all are. -/
theorem fill_cons_append_place (h : Plain (v :: bs)) (ha : occurrences (place v.1) a = 0) (r : List Char) :
    fill (v :: bs) (a ++ (place v.1 ++ r)) = fill bs a ++ (v.2.toList ++ fill (v :: bs) r) := by
  rw [fill_append_place_mem h List.mem_cons_self, fill_cons_of_free h ha]

/-- Filling in a variable more removes no place of another one. -/
theorem occurrences_fill_cons_le (h : Plain (w :: bs)) (hn : Braceless n)
    (hnot : n ∉ (w :: bs).map (·.1)) (s : List Char) :
    occurrences (place n) (fill bs s) ≤ occurrences (place n) (fill (w :: bs) s) := by
  rw [List.map_cons, List.mem_cons, not_or] at hnot
  induction s using place_induction h.head with
  | free s hs => rw [fill_cons_of_free h hs]
  | next a r ha ih =>
      rw [fill_append_place_not_mem h.tail h.head h.not_mem, fill_cons_append_place h ha,
        occurrences_append_other h.head hn (Ne.symm hnot.1)]
      have hparts := occurrences_add_le (place n) (fill bs a) (w.2.toList ++ fill (w :: bs) r)
      have hvalue := occurrences_add_le (place n) w.2.toList (fill (w :: bs) r)
      omega

theorem occurrences_fill_append_le (h : Plain (ws ++ bs)) (hn : Braceless n)
    (hnot : n ∉ (ws ++ bs).map (·.1)) (s : List Char) :
    occurrences (place n) (fill bs s) ≤ occurrences (place n) (fill (ws ++ bs) s) := by
  induction ws with
  | nil => exact Nat.le_refl _
  | cons w ws ih =>
      rw [List.cons_append] at h hnot ⊢
      refine (ih h.tail ?_).trans (occurrences_fill_cons_le h hn hnot s)
      exact fun hmem => hnot (List.mem_cons_of_mem _ hmem)

/-- The template has no more places of an unknown variable than the filled text. -/
theorem occurrences_le_fill (h : Plain bs) (hn : Braceless n) (hnot : n ∉ bs.map (·.1)) (s : List Char) :
    occurrences (place n) s ≤ occurrences (place n) (fill bs s) := by
  have hle := @occurrences_fill_append_le [] bs n (by rwa [List.append_nil]) hn (by rwa [List.append_nil]) s
  rwa [fill_nil_bindings, List.append_nil] at hle

/-- Each place of the variable becomes its value. -/
theorem length_fill_cons (h : Plain (v :: bs)) (s : List Char) :
    (fill (v :: bs) s).length + occurrences (place v.1) s * (place v.1).length =
      (fill bs s).length + occurrences (place v.1) s * v.2.toList.length := by
  induction s using place_induction h.head with
  | free s hs => rw [fill_cons_of_free h hs, hs, Nat.zero_mul, Nat.zero_mul]
  | next a r ha ih =>
      rw [fill_cons_append_place h ha, fill_append_place_not_mem h.tail h.head h.not_mem,
        occurrences_append_place h.head, ha]
      simp only [List.length_append, Nat.zero_add, Nat.add_mul, Nat.one_mul]
      omega

theorem fill_cons_of_eq_place (h : Plain (v :: bs)) (hv : v.2.toList = place v.1) (s : List Char) :
    fill (v :: bs) s = fill bs s := by
  induction s using place_induction h.head with
  | free s hs => exact fill_cons_of_free h hs
  | next a r ha ih =>
      rw [fill_cons_append_place h ha, fill_append_place_not_mem h.tail h.head h.not_mem, hv, ih]

/-! ### One replacement after another -/

/-- One replacement is right if the text it works on has no place of the variable that the template has not. -/
theorem fill_single_fill_of_occurrences_eq (h : Plain (v :: bs))
    (hsame : occurrences (place v.1) (fill bs s) = occurrences (place v.1) s) :
    fill [v] (fill bs s) = fill (v :: bs) s := by
  induction s using place_induction h.head with
  | free s hs => rw [fill_cons_of_free h.single (hsame.trans hs), fill_nil_bindings, fill_cons_of_free h hs]
  | next a r ha ih =>
      have hrest := occurrences_le_fill h.tail h.head h.not_mem r
      rw [fill_append_place_not_mem h.tail h.head h.not_mem] at hsame ⊢
      rw [occurrences_append_place h.head, occurrences_append_place h.head, ha] at hsame
      rw [fill_cons_append_place h.single (by omega), fill_nil_bindings, ih (by omega),
        fill_cons_append_place h ha]

/-- Values as long as their place leave a text with a place only if they are that place. -/
theorem eq_place_of_fill_single (h : Plain (v :: bs)) (hlength : v.2.toList.length = (place v.1).length)
    (hfill : fill [v] s = s) : v.2.toList = place v.1 ∨ occurrences (place v.1) s = 0 := by
  by_cases hfree : occurrences (place v.1) s = 0
  · exact Or.inr hfree
  · obtain ⟨a, r, rfl, ha⟩ := exists_first hfree
    rw [fill_cons_append_place h.single ha, fill_nil_bindings] at hfill
    exact Or.inl (List.append_inj (List.append_cancel_left hfill) hlength).1

theorem eq_place_or_occurrences_eq_of_length_eq (h : Plain (v :: bs))
    (hlength : v.2.toList.length = (place v.1).length) (hfill : fill [v] (fill bs s) = fill (v :: bs) s) :
    v.2.toList = place v.1 ∨ occurrences (place v.1) (fill bs s) = occurrences (place v.1) s := by
  induction s using place_induction h.head with
  | free s hs =>
      rw [fill_cons_of_free h hs] at hfill
      rw [hs]
      exact eq_place_of_fill_single h hlength hfill
  | next a r ha ih =>
      rw [fill_append_place_not_mem h.tail h.head h.not_mem] at hfill ⊢
      rw [fill_append_place_mem h.single List.mem_cons_self, fill_cons_append_place h ha] at hfill
      -- no replacement changes a length, so the two sides agree before and after the place
      have hsame : (fill [v] (fill bs a)).length = (fill bs a).length := by
        have hcount := length_fill_cons h.single (fill bs a)
        rw [hlength, fill_nil_bindings] at hcount
        exact Nat.add_right_cancel hcount
      obtain ⟨hbefore, hafter⟩ := List.append_inj hfill hsame
      rw [occurrences_append_place h.head, occurrences_append_place h.head, ha]
      rcases eq_place_of_fill_single h hlength hbefore with heq | hfree
      · exact Or.inl heq
      · rw [hfree]
        exact (ih (List.append_cancel_left hafter)).imp id fun hcount => by rw [hcount]

/-- One more replacement is what one pass with one more variable is, exactly if the other values brought along no
place of the variable, or its value is that place. -/
theorem fill_single_fill_iff (h : Plain (v :: bs)) :
    fill [v] (fill bs s) = fill (v :: bs) s ↔
      v.2.toList = place v.1 ∨ occurrences (place v.1) (fill bs s) = occurrences (place v.1) s := by
  constructor
  · intro hfill
    by_cases hlength : v.2.toList.length = (place v.1).length
    · exact eq_place_or_occurrences_eq_of_length_eq h hlength hfill
    · -- the lengths tell how many places were replaced on either side
      have honce := length_fill_cons h.single (fill bs s)
      have hall := length_fill_cons h s
      rw [hfill, fill_nil_bindings] at honce
      have hproduct : ((occurrences (place v.1) (fill bs s) : ℤ) - occurrences (place v.1) s) *
          ((place v.1).length - v.2.toList.length) = 0 := by
        zify at honce hall
        linear_combination honce - hall
      rcases mul_eq_zero.mp hproduct with hcount | hvalue
      · exact Or.inr (by omega)
      · exact (hlength (by omega)).elim
  · rintro (heq | hsame)
    · rw [fill_cons_of_eq_place h.single heq, fill_cons_of_eq_place h heq, fill_nil_bindings]
    · exact fill_single_fill_of_occurrences_eq h hsame

theorem afterPrefix?_isSome (p s : List Char) : (Text.afterPrefix? p s).isSome = p.isPrefixOf s := by
  fun_induction Text.afterPrefix? p s with
  | case1 s => simp
  | case2 => rfl
  | case3 p ps c cs heq ih => rw [ih, List.isPrefixOf_cons_cons, heq, Bool.true_and]
  | case4 p ps c cs hne => simp [List.isPrefixOf_cons_cons, hne]

theorem replaceAll_place (v : String × String) (s : List Char) :
    Text.replaceAll (place v.1) v.2.toList s = fill [v] s := by
  suffices hfrom : ∀ skip, Text.replaceFrom (place v.1) v.2.toList skip s = fillFrom [v] skip s from hfrom 0
  intro skip
  induction s generalizing skip with
  | nil => cases skip <;> rfl
  | cons c s ih =>
      cases skip with
      | succ skip => exact ih skip
      | zero =>
          rw [Text.replaceFrom, fillFrom, placed?, List.find?_singleton, afterPrefix?_isSome, ih, ih]
          split <;> rfl

theorem toList_text (template : String) (bs : List (String × String)) :
    (text ⟨template, bs⟩).toList = bs.foldl (fun s v => fill [v] s) template.toList := by
  simp only [text, replaceAll_place, String.toList_ofList]

theorem toList_text_concat (template : String) (bs : List (String × String)) (v : String × String) :
    (text ⟨template, bs ++ [v]⟩).toList = fill [v] (text ⟨template, bs⟩).toList := by
  rw [toList_text, List.foldl_concat, ← toList_text]

/-- Filled in one after another the variables give what one pass gives, if for none of them the values of those
before it brought along a place of it. -/
theorem toList_text_eq_fill (h : Plain bs) (template : String)
    (hstep : ∀ earlier v, earlier ++ [v] <+: bs → v.2.toList = place v.1 ∨
      occurrences (place v.1) (fill earlier template.toList) = occurrences (place v.1) template.toList) :
    (text ⟨template, bs⟩).toList = fill bs template.toList := by
  induction bs using List.reverseRecOn with
  | nil => rw [toList_text, List.foldl_nil, fill_nil_bindings]
  | append_singleton earlier v ih =>
      have hperm : (v :: earlier).Perm (earlier ++ [v]) := (List.perm_append_singleton v earlier).symm
      have hplain := h.perm hperm
      rw [toList_text_concat, ih hplain.tail fun e w hw => hstep e w (hw.trans (List.prefix_append _ _)),
        (fill_single_fill_iff hplain).mpr (hstep earlier v List.prefix_rfl), fill_perm h hperm]

/-- What the values of all other variables bring along decides about every part of the variables. -/
theorem occurrences_fill_part (h : Plain (v :: bs)) {part : List (String × String)} (hpart : part.Subperm bs)
    (hall : occurrences (place v.1) (fill bs s) = occurrences (place v.1) s) :
    occurrences (place v.1) (fill part s) = occurrences (place v.1) s := by
  obtain ⟨l, hl, hsub⟩ := hpart
  obtain ⟨rest, hrest⟩ := hsub.exists_perm_append
  have hperm : (rest ++ part).Perm bs :=
    (List.perm_append_comm.trans (hl.symm.append_right rest)).trans hrest.symm
  have hplain : Plain (rest ++ part) := h.tail.perm hperm
  have hnot : v.1 ∉ (rest ++ part).map (·.1) := mt (hperm.map _).mem_iff.mp h.not_mem
  apply Nat.le_antisymm
  · rw [← hall, ← fill_perm h.tail hperm]
    exact occurrences_fill_append_le hplain h.head hnot s
  · refine occurrences_le_fill (hplain.sublist (List.sublist_append_right rest part)) h.head ?_ s
    exact fun hmem => hnot (List.map_append ▸ List.mem_append_right _ hmem)

/-- Some of the variables, in any order, give what one pass gives, exactly if for no variable the values of all
others bring along a place that the template does not have. A variable whose value is its own place does no
harm. -/
theorem text_eq_fill_iff (h : Plain bs) (template : String) :
    (∀ part order, part.Subperm bs → order.Perm part →
      (text ⟨template, order⟩).toList = fill part template.toList) ↔
    ∀ v ∈ bs, v.2.toList = place v.1 ∨
      occurrences (place v.1) (fill (bs.erase v) template.toList) =
        occurrences (place v.1) template.toList := by
  constructor
  · intro hall v hv
    have hperm : (v :: bs.erase v).Perm bs := (List.perm_cons_erase hv).symm
    have hothers := hall (bs.erase v) (bs.erase v) (List.erase_subperm v bs) (List.Perm.refl _)
    have htext := hall bs (bs.erase v ++ [v]) (List.Subperm.refl bs)
      ((List.perm_append_singleton v _).trans hperm)
    rw [toList_text_concat, hothers, ← fill_perm h hperm] at htext
    exact (fill_single_fill_iff (h.perm hperm)).mp htext
  · intro hfree part order hpart horder
    rw [← fill_perm (h.subperm hpart) horder]
    refine toList_text_eq_fill (h.subperm (horder.subperm.trans hpart)) template fun earlier v hinit => ?_
    have hwithin : (v :: earlier).Subperm bs :=
      (List.perm_append_singleton v earlier).symm.subperm.trans
        (hinit.sublist.subperm.trans (horder.subperm.trans hpart))
    have hv : v ∈ bs := hwithin.subset List.mem_cons_self
    have hperm : (v :: bs.erase v).Perm bs := (List.perm_cons_erase hv).symm
    have hearlier : earlier.Subperm (bs.erase v) :=
      (List.subperm_cons v).mp (hwithin.trans hperm.symm.subperm)
    exact (hfree v hv).imp id fun hsame => occurrences_fill_part (h.perm hperm) hearlier hsame

theorem text_eq_fill_iff_question :
    Plain [("query", "what"), ("k", "3")] ∧
      (text ⟨"Q: \x7bquery\x7d\nK: \x7bk\x7d", [("k", "3"), ("query", "what")]⟩).toList =
        fill [("query", "what"), ("k", "3")] "Q: \x7bquery\x7d\nK: \x7bk\x7d".toList := by
  have hplain : Plain [("query", "what"), ("k", "3")] := ⟨by decide, by decide⟩
  exact ⟨hplain, (text_eq_fill_iff hplain _).mpr (by decide) _ _ (List.Subperm.refl _) (List.Perm.swap _ _ _)⟩

/-- A value that holds the place of a later variable is written into, and not if that variable comes first. -/
theorem value_is_written_into :
    ¬ ∀ (template : String) (bs : List (String × String)), (bs.map (·.1)).Nodup →
      (text ⟨template, bs⟩).toList = fill bs template.toList ∧
        ∀ order, order.Perm bs → text ⟨template, order⟩ = text ⟨template, bs⟩ := by
  intro h
  have hfill := (h "\x7ba\x7d" [("a", "\x7bb\x7d"), ("b", "x")] (by decide)).1
  revert hfill
  decide

end CorpusIndex.Prompt
