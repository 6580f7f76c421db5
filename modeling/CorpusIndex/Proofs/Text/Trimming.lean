import CorpusIndex.Proofs.Text.Words

/-!
# Blanks at the ends of a text

Trimming takes off the blanks at both ends and nothing else. A text with a character that is not blank keeps it
when it is trimmed or cut, and what is left of it has no blank at an end (`Tidy`).
-/
namespace CorpusIndex.Text

variable {p : Char → Bool} {s w : List Char} {c : Char}

/-! ### Texts that are not blank -/

/-- Some character of the text is not blank. -/
def Inked (s : List Char) : Prop := ∃ c ∈ s, isBlank c = false

instance : Decidable (Inked s) := decidable_of_iff ((s.any fun c => !isBlank c) = true) (by simp [Inked])

theorem mem_dropWhile (h : c ∈ s) (hc : p c = false) : c ∈ s.dropWhile p := by
  induction s with
  | nil => cases h
  | cons d s ih =>
      rw [List.dropWhile_cons]
      split
      next hd =>
        refine ih ((List.mem_cons.mp h).resolve_left ?_)
        rintro rfl
        rw [hc] at hd
        cases hd
      next => exact h

theorem mem_trimBy (h : c ∈ s) (hc : p c = false) : c ∈ trimBy p s :=
  List.mem_reverse.mpr (mem_dropWhile (List.mem_reverse.mpr (mem_dropWhile h hc)) hc)

theorem Inked.trim (h : Inked s) : Inked (trim s) := by
  obtain ⟨c, hc, hink⟩ := h
  exact ⟨c, mem_trimBy hc hink, hink⟩

theorem Inked.ne_nil (h : Inked s) : s ≠ [] := by
  rintro rfl
  obtain ⟨c, hc, _⟩ := h
  cases hc

theorem inked_of_trim (h : Text.trim s ≠ []) : Inked (Text.trim s) := by
  have hne : (s.dropWhile isBlank).reverse.dropWhile isBlank ≠ [] := fun hnil =>
    h (by rw [Text.trim, trimBy, hnil, List.reverse_nil])
  exact ⟨_, List.mem_reverse.mpr (List.head_mem hne), List.head_dropWhile_not isBlank hne⟩

theorem mem_pieces (h : c ∈ s) (hc : p c = false) : ∃ w ∈ pieces p s, c ∈ w := by
  induction s with
  | nil => cases h
  | cons d s ih =>
      unfold pieces
      split
      next hd =>
        obtain ⟨w, hw, hcw⟩ := ih ((List.mem_cons.mp h).resolve_left (by rintro rfl; simp [hc] at hd))
        exact ⟨w, List.mem_cons_of_mem _ hw, hcw⟩
      next =>
        split
        next hnil => exact (pieces_ne_nil p s hnil).elim
        next piece rest hpieces =>
          rcases List.mem_cons.mp h with rfl | h
          · exact ⟨_, List.mem_cons_self, List.mem_cons_self⟩
          · obtain ⟨w, hw, hcw⟩ := ih h
            rw [hpieces] at hw
            rcases List.mem_cons.mp hw with rfl | hw
            · exact ⟨_, List.mem_cons_self, List.mem_cons_of_mem _ hcw⟩
            · exact ⟨w, List.mem_cons_of_mem _ hw, hcw⟩

theorem Inked.words_ne_nil (h : Inked s) : words s ≠ [] := by
  obtain ⟨c, hc, hink⟩ := h
  obtain ⟨w, hw, hcw⟩ := mem_pieces (p := fun c => !!isBlank c) hc (by simpa using hink)
  exact List.ne_nil_of_mem (List.mem_filter.mpr ⟨hw, by simpa using List.ne_nil_of_mem hcw⟩)

theorem inked_of_words_ne_nil (h : words s ≠ []) : Inked s := by
  obtain ⟨w, hw⟩ := List.exists_mem_of_ne_nil _ h
  obtain ⟨c, hc⟩ := List.exists_mem_of_ne_nil _ (ne_nil_of_mem_runs hw)
  obtain ⟨hin, hink⟩ := of_mem_pieces (List.mem_filter.mp hw).1 hc
  exact ⟨c, hin, by simpa using hink⟩

theorem Inked.sentences_ne_nil (h : Inked s) : sentences s ≠ [] := by
  obtain ⟨c, hc, hink⟩ := h
  rw [← flatten_sentencePieces s] at hc
  obtain ⟨piece, hpiece, hc⟩ := List.mem_flatten.mp hc
  have htrim : Inked (Text.trim piece) := Inked.trim ⟨c, hc, hink⟩
  exact List.ne_nil_of_mem (List.mem_filter.mpr ⟨List.mem_map_of_mem hpiece, by simpa using htrim.ne_nil⟩)

theorem inked_of_mem_sentences {t : List Char} (h : t ∈ sentences s) : Inked t := by
  obtain ⟨h, hne⟩ := List.mem_filter.mp h
  obtain ⟨piece, _, rfl⟩ := List.mem_map.mp h
  exact inked_of_trim (by simpa using hne)

theorem Inked.paragraph (h : Inked s) : ∃ t ∈ paragraphs s, Inked t := by
  obtain ⟨c, hc, hink⟩ := h
  suffices hin : ∃ t ∈ paragraphs s, c ∈ t from hin.imp fun t ht => ⟨ht.1, c, ht.2, hink⟩
  have hfeed : c ≠ '\n' := by
    rintro rfl
    cases hink
  fun_induction paragraphs s with
  | case1 => cases hc
  | case2 rest ih =>
      have hc : c ∈ rest := by simpa [hfeed] using hc
      exact (ih hc).imp fun t ht => ⟨List.mem_cons_of_mem _ ht.1, ht.2⟩
  | case3 d rest _ hnil ih =>
      rcases List.mem_cons.mp hc with rfl | hc
      · exact ⟨[c], List.mem_cons_self, List.mem_cons_self⟩
      · obtain ⟨t, ht, _⟩ := ih hc
        rw [hnil] at ht
        cases ht
  | case4 d rest _ piece more hpieces ih =>
      rcases List.mem_cons.mp hc with rfl | hc
      · exact ⟨c :: piece, List.mem_cons_self, List.mem_cons_self⟩
      · obtain ⟨t, ht, hct⟩ := ih hc
        rw [hpieces] at ht
        rcases List.mem_cons.mp ht with rfl | ht
        · exact ⟨d :: t, List.mem_cons_self, List.mem_cons_of_mem _ hct⟩
        · exact ⟨t, List.mem_cons_of_mem _ ht, hct⟩

/-! ### Texts without blanks at their ends -/

/-- The text holds something and has no blank at either end. -/
structure Tidy (s : List Char) : Prop where
  inked : Inked s
  head : ∀ c ∈ s.head?, isBlank c = false
  last : ∀ c ∈ s.getLast?, isBlank c = false

theorem tidy_iff : Tidy s ↔ s.head?.map isBlank = some false ∧ s.getLast?.map isBlank = some false := by
  constructor
  · intro h
    have hne := h.inked.ne_nil
    have hhead := List.head?_eq_some_head hne
    have hlast := List.getLast?_eq_some_getLast hne
    rw [hhead, hlast, Option.map_some, Option.map_some]
    exact ⟨congrArg some (h.head _ hhead), congrArg some (h.last _ hlast)⟩
  · rintro ⟨hhead, hlast⟩
    obtain ⟨c, hc, hink⟩ := Option.map_eq_some_iff.mp hhead
    obtain ⟨d, hd, hlast⟩ := Option.map_eq_some_iff.mp hlast
    refine ⟨⟨c, List.mem_of_head? hc, hink⟩, fun x hx => ?_, fun x hx => ?_⟩
    · rwa [Option.some.inj (hx.symm.trans hc)]
    · rwa [Option.some.inj (hx.symm.trans hd)]

theorem tidy_of_unblank (hne : s ≠ []) (h : ∀ c ∈ s, isBlank c = false) : Tidy s where
  inked := ⟨_, List.head_mem hne, h _ (List.head_mem hne)⟩
  head _ hc := h _ (List.mem_of_head? hc)
  last _ hc := h _ (List.mem_of_getLast? hc)

theorem tidy_of_mem_words (h : w ∈ words s) : Tidy w :=
  tidy_of_unblank (ne_nil_of_mem_runs h) fun _ hc => by simpa using of_mem_runs h hc

/-! ### What trimming takes off -/

/-- A run of blanks, such as stands around what is trimmed. -/
def Gap (s : List Char) : Prop := ∀ c ∈ s, isBlank c = true

theorem exists_eq_trim (s : List Char) : ∃ a b, Gap a ∧ Gap b ∧ s = a ++ trim s ++ b := by
  let t := s.dropWhile isBlank
  refine ⟨s.takeWhile isBlank, (t.reverse.takeWhile isBlank).reverse, ?_, ?_, ?_⟩
  · exact fun c hc => List.mem_takeWhile_imp hc
  · exact fun c hc => List.mem_takeWhile_imp (List.mem_reverse.mp hc)
  · have hright : t = trim s ++ (t.reverse.takeWhile isBlank).reverse := calc
      t = (t.reverse.takeWhile isBlank ++ t.reverse.dropWhile isBlank).reverse := by
        rw [List.takeWhile_append_dropWhile, List.reverse_reverse]
      _ = trim s ++ (t.reverse.takeWhile isBlank).reverse := by rw [List.reverse_append, trim, trimBy]
    rw [List.append_assoc, ← hright, List.takeWhile_append_dropWhile]

theorem trim_isInfix (s : List Char) : trim s <:+: s := by
  obtain ⟨a, b, _, _, hs⟩ := exists_eq_trim s
  exact ⟨a, b, hs.symm⟩

theorem dropWhile_eq_self_of_head (h : ∀ c ∈ s.head?, p c = false) : s.dropWhile p = s := by
  cases s with
  | nil => rfl
  | cons c s => exact List.dropWhile_cons_of_neg (by simp [h c rfl])

theorem head_dropWhile_of_mem (h : c ∈ (s.dropWhile p).head?) : p c = false := by
  have hnot := List.head?_dropWhile_not p s
  rw [Option.mem_def.mp h] at hnot
  exact hnot

theorem trim_of_tidy (h : Tidy s) : trim s = s := by
  rw [trim, trimBy, dropWhile_eq_self_of_head h.head, dropWhile_eq_self_of_head, List.reverse_reverse]
  rw [List.head?_reverse]
  exact h.last

theorem tidy_trim (h : trim s ≠ []) : Tidy (trim s) where
  inked := inked_of_trim h
  head c hc := by
    obtain ⟨rest, hrest⟩ : trim s <+: s.dropWhile isBlank := List.rdropWhile_prefix isBlank _
    apply head_dropWhile_of_mem (p := isBlank) (s := s)
    rw [← hrest, List.head?_append_of_ne_nil _ h]
    exact hc
  last c hc := by
    apply head_dropWhile_of_mem (p := isBlank) (s := (s.dropWhile isBlank).reverse)
    rw [trim, trimBy, List.getLast?_reverse] at hc
    exact hc

/-- Blanks before a text are taken off with its own. -/
theorem trim_gap_append (h : Gap w) (s : List Char) : trim (w ++ s) = trim s := by
  induction w with
  | nil => rfl
  | cons b w ih =>
      rw [List.cons_append, trim_cons_blank (h b List.mem_cons_self), ih fun c hc => h c (List.mem_cons_of_mem _ hc)]

theorem trim_append_gap (h : Gap w) (s : List Char) : trim (s ++ w) = trim s := by
  induction w generalizing s with
  | nil => rw [List.append_nil]
  | cons b w ih =>
      rw [List.append_cons, ih (fun c hc => h c (List.mem_cons_of_mem _ hc)),
        trim_concat_blank (h b List.mem_cons_self)]

/-- Nothing is taken off after a character that is not blank. -/
theorem trim_concat (hc : isBlank c = false) (s : List Char) : trim (s ++ [c]) = s.dropWhile isBlank ++ [c] := by
  have hleft : (s ++ [c]).dropWhile isBlank = s.dropWhile isBlank ++ [c] := by
    rw [List.dropWhile_append, List.dropWhile_cons_of_neg (by simp [hc])]
    split
    next hnil => rw [List.isEmpty_iff.mp hnil, List.nil_append]
    next => rfl
  rw [trim, trimBy, hleft, List.reverse_concat, List.dropWhile_cons_of_neg (by simp [hc]), List.reverse_cons,
    List.reverse_reverse]

theorem Gap.append (ha : Gap w) (hb : Gap s) : Gap (w ++ s) := List.forall_mem_append.mpr ⟨ha, hb⟩

theorem trim_eq_nil_iff : trim s = [] ↔ Gap s := by
  constructor
  · intro h
    obtain ⟨a, b, ha, hb, hs⟩ := exists_eq_trim s
    rw [h, List.append_nil] at hs
    exact hs ▸ ha.append hb
  · intro h
    have hs := trim_gap_append h []
    rwa [List.append_nil] at hs

end CorpusIndex.Text
