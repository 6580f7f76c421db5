import CorpusIndex.Proofs.Text.Trimming

/-!
# The sentences of a text

The sentences of a text stand in it in order, with blanks around them. No sentence goes on after an end that a
blank follows, and each but the last has such an end. These properties fix the sentences: no other division of
the text has them.
-/
namespace CorpusIndex.Text

variable {s t w : List Char} {c b : Char} {l : List (List Char)}

/-- Nowhere in the text does a blank follow the end of a sentence. -/
def Unbroken (s : List Char) : Prop := ∀ c b, [c, b] <:+: s → endsSentence c = true → isBlank b = false

/-- The last character can end a sentence. -/
def Ended (s : List Char) : Prop := s.getLast?.any endsSentence = true

/-- Texts that stand in a text in order, with nothing but blanks around them and a blank between any two. -/
inductive Spaced : List Char → List (List Char) → Prop
  | gap {a : List Char} : Gap a → Spaced a []
  | cons {a t s : List Char} {l : List (List Char)} : Gap a → s.head?.all isBlank = true → Spaced s l →
      Spaced (a ++ (t ++ s)) (t :: l)

/-- A division of a text into sentences. -/
structure Divides (s : List Char) (l : List (List Char)) : Prop where
  spaced : Spaced s l
  tidy : ∀ t ∈ l, Tidy t
  unbroken : ∀ t ∈ l, Unbroken t
  ended : ∀ t ∈ l.dropLast, Ended t

/-! ### Texts in order -/

namespace Spaced

theorem infix_of_mem (h : Spaced s l) (ht : t ∈ l) : t <:+: s := by
  induction h with
  | gap _ => cases ht
  | @cons a u s l _ _ _ ih =>
      rcases List.mem_cons.mp ht with rfl | ht
      · exact ⟨a, s, List.append_assoc a t s⟩
      · exact (ih ht).trans ((List.suffix_append u s).trans (List.suffix_append a _)).isInfix

theorem gap_append (h : Spaced s l) (hw : Gap w) : Spaced (w ++ s) l := by
  cases h with
  | gap ha => exact .gap (hw.append ha)
  | cons ha hs hl =>
      rw [← List.append_assoc]
      exact .cons (hw.append ha) hs hl

theorem gap_of_nil (h : Spaced s []) : Gap s := by
  cases h with
  | gap ha => exact ha

end Spaced

theorem head_all_of_any {p : Char → Bool} (h : s.head?.any p = true) : s.head?.all p = true := by
  cases s with
  | nil => rfl
  | cons c s => exact h

theorem head_any_of_prefix {p : Char → Bool} (ht : t <+: s) (h : t.head?.any p = true) : s.head?.any p = true := by
  obtain ⟨rest, rfl⟩ := ht
  cases t with
  | nil => cases h
  | cons c t => exact h

theorem mem_of_mem_dropLast_append {ps qs : List (List Char)} (h : t ∈ (ps ++ qs).dropLast) (hqs : qs.length ≤ 1) :
    t ∈ ps := by
  match qs with
  | [] =>
      rw [List.append_nil] at h
      exact (List.dropLast_sublist ps).subset h
  | [q] => rwa [List.dropLast_concat] at h

/-! ### Pieces of a text -/

/-- Pieces without the blanks around them; blank ones are left out. -/
def tidied (ps : List (List Char)) : List (List Char) := (ps.map trim).filter (· ≠ [])

theorem tidied_cons_of_gap (h : Gap w) (ps : List (List Char)) : tidied (w :: ps) = tidied ps := by
  rw [tidied, List.map_cons, trim_eq_nil_iff.mpr h]
  exact List.filter_cons_of_neg (by simp)

theorem tidied_cons_of_tidy (h : Tidy (trim t)) (ps : List (List Char)) : tidied (t :: ps) = trim t :: tidied ps := by
  rw [tidied, List.map_cons]
  exact List.filter_cons_of_pos (by simpa using h.inked.ne_nil)

theorem mem_tidied {ps : List (List Char)} : t ∈ tidied ps ↔ ∃ p ∈ ps, Tidy t ∧ trim p = t := by
  simp only [tidied, List.mem_filter, List.mem_map]
  constructor
  · rintro ⟨⟨p, hp, rfl⟩, hne⟩
    exact ⟨p, hp, tidy_trim (by simpa using hne), rfl⟩
  · rintro ⟨p, hp, ht, rfl⟩
    exact ⟨⟨p, hp, rfl⟩, by simpa using ht.inked.ne_nil⟩

theorem tidied_append (ps qs : List (List Char)) : tidied (ps ++ qs) = tidied ps ++ tidied qs := by
  simp only [tidied, List.map_append, List.filter_append]

theorem length_tidied_le (ps : List (List Char)) : (tidied ps).length ≤ ps.length :=
  (List.length_filter_le _ _).trans_eq (List.length_map trim)

theorem sentences_eq (s : List Char) : sentences s = tidied (sentencePieces s) := rfl

/-- A piece is put before others that begin with a blank. -/
theorem Spaced.piece {ps : List (List Char)} (h : Spaced s (tidied ps)) (hs : s.head?.all isBlank = true)
    (p : List Char) : Spaced (p ++ s) (tidied (p :: ps)) := by
  by_cases hp : Gap p
  · rw [tidied_cons_of_gap hp]
    exact h.gap_append hp
  · have htidy : Tidy (trim p) := tidy_trim (mt trim_eq_nil_iff.mp hp)
    obtain ⟨a, b, ha, hb, heq⟩ := exists_eq_trim p
    have hrest : (b ++ s).head?.all isBlank = true := by
      cases b with
      | nil => exact hs
      | cons c b => exact hb c List.mem_cons_self
    rw [tidied_cons_of_tidy htidy]
    nth_rewrite 1 [heq]
    rw [List.append_assoc, List.append_assoc]
    exact .cons ha hrest (h.gap_append hb)

theorem spaced_pieces_from (s t : List Char) :
    Spaced (s ++ t) (tidied ((sentencePieces t).modifyHead (s ++ ·))) := by
  induction t generalizing s with
  | nil =>
      rw [sentencePieces, List.modifyHead_cons]
      have hnothing : Spaced [] (tidied []) := .gap fun c hc => by cases hc
      have hpiece := hnothing.piece rfl s
      rwa [List.append_nil] at hpiece ⊢
  | cons c t ih =>
      by_cases h : (endsSentence c && t.head?.any isBlank) = true
      · have hrest := ih []
        rw [modifyHead_nil_append, List.nil_append] at hrest
        rw [sentencePieces, if_pos h, List.modifyHead_cons, List.append_cons]
        exact hrest.piece (head_all_of_any (Bool.and_eq_true_iff.mp h).2) _
      · rw [sentencePieces_cons h, modifyHead_append_cons, List.append_cons]
        exact ih (s ++ [c])

theorem spaced_sentences (s : List Char) : Spaced s (sentences s) := by
  have h := spaced_pieces_from [] s
  rwa [modifyHead_nil_append, List.nil_append] at h

/-! ### Where a piece ends -/

theorem unbroken_singleton (c : Char) : Unbroken [c] := fun _ _ h => by
  have hlength := h.length_le
  simp at hlength

theorem Unbroken.of_isInfix (h : Unbroken s) (ht : t <:+: s) : Unbroken t := fun c b hin => h c b (hin.trans ht)

theorem unbroken_cons (h : Unbroken s) (hc : ¬ (endsSentence c && s.head?.any isBlank) = true) :
    Unbroken (c :: s) := by
  intro d b hin hd
  rcases List.infix_cons_iff.mp hin with hhead | hin
  · obtain ⟨rfl, hb⟩ := List.cons_prefix_cons.mp hhead
    obtain ⟨rest, rfl⟩ := hb
    simpa [hd] using hc
  · exact h d b hin hd

theorem prefix_of_pieces (h : sentencePieces s = t :: l) : t <+: s := by
  have hs := flatten_sentencePieces s
  rw [h, List.flatten_cons] at hs
  exact ⟨l.flatten, hs⟩

theorem unbroken_of_mem_pieces (h : t ∈ sentencePieces s) : Unbroken t := by
  induction s generalizing t with
  | nil =>
      rw [List.mem_singleton.mp h]
      exact fun c b hin => by simpa using hin.length_le
  | cons c s ih =>
      by_cases hcut : (endsSentence c && s.head?.any isBlank) = true
      · rw [sentencePieces, if_pos hcut] at h
        rcases List.mem_cons.mp h with rfl | h
        · exact unbroken_singleton c
        · exact ih h
      · rw [sentencePieces_cons hcut] at h
        cases hs : sentencePieces s with
        | nil => exact (sentencePieces_ne_nil s hs).elim
        | cons piece more =>
            rw [hs] at h ih
            rcases List.mem_cons.mp h with rfl | h
            · refine unbroken_cons (ih List.mem_cons_self) fun hc => hcut ?_
              rw [Bool.and_eq_true_iff] at hc ⊢
              exact ⟨hc.1, head_any_of_prefix (prefix_of_pieces hs) hc.2⟩
            · exact ih (List.mem_cons_of_mem _ h)

theorem Ended.cons (h : Ended s) (c : Char) : Ended (c :: s) := by
  cases s with
  | nil => cases h
  | cons d s => rwa [Ended, List.getLast?_cons_cons]

theorem ended_of_mem_pieces (h : t ∈ (sentencePieces s).dropLast) : Ended t := by
  induction s generalizing t with
  | nil => cases h
  | cons c s ih =>
      by_cases hcut : (endsSentence c && s.head?.any isBlank) = true
      · rw [sentencePieces, if_pos hcut, List.dropLast_cons_of_ne_nil (sentencePieces_ne_nil s)] at h
        rcases List.mem_cons.mp h with rfl | h
        · exact (Bool.and_eq_true_iff.mp hcut).1
        · exact ih h
      · rw [sentencePieces_cons hcut] at h
        cases hs : sentencePieces s with
        | nil => exact (sentencePieces_ne_nil s hs).elim
        | cons piece more =>
            rw [hs] at h ih
            cases more with
            | nil => cases h
            | cons next more =>
                rcases List.mem_cons.mp h with rfl | h
                · exact (ih List.mem_cons_self).cons c
                · exact ih (List.mem_cons_of_mem _ h)

theorem not_blank_of_endsSentence (h : endsSentence c = true) : isBlank c = false := by
  simp only [endsSentence, Bool.or_eq_true, beq_iff_eq] at h
  rcases h with (rfl | rfl) | rfl <;> rfl

/-- No blank is taken off after the end of a sentence. -/
theorem Ended.trim (h : Ended s) : Ended (trim s) := by
  obtain ⟨c, hlast, hc⟩ := (Option.any_eq_true _ _).mp h
  obtain ⟨t, rfl⟩ := List.getLast?_eq_some_iff.mp hlast
  rw [Ended, trim_concat (not_blank_of_endsSentence hc), List.getLast?_concat]
  exact hc

/-- Only the last piece may be blank or end without the end of a sentence. -/
theorem ended_of_mem_sentences (h : t ∈ (sentences s).dropLast) : Ended t := by
  rw [sentences_eq, ← List.dropLast_append_getLast (sentencePieces_ne_nil s), tidied_append] at h
  obtain ⟨p, hp, -, rfl⟩ := mem_tidied.mp (mem_of_mem_dropLast_append h (length_tidied_le [_]))
  exact (ended_of_mem_pieces hp).trim

theorem divides_sentences (s : List Char) : Divides s (sentences s) where
  spaced := spaced_sentences s
  tidy t ht := by
    obtain ⟨p, _, htidy, _⟩ := mem_tidied.mp ht
    exact htidy
  unbroken t ht := by
    obtain ⟨p, hp, _, rfl⟩ := mem_tidied.mp ht
    exact (unbroken_of_mem_pieces hp).of_isInfix (trim_isInfix p)
  ended t := ended_of_mem_sentences

/-! ### No other division -/

/-- A text without an inner cut is cut off before a blank if it ends a sentence, and goes on otherwise. -/
theorem sentencePieces_append (h : Unbroken t) (s : List Char) :
    sentencePieces (t ++ s) = if (t.getLast?.any endsSentence && s.head?.any isBlank) = true
      then t :: sentencePieces s else (sentencePieces s).modifyHead (t ++ ·) := by
  induction t with
  | nil => exact (modifyHead_nil_append _).symm
  | cons c t ih =>
      cases t with
      | nil =>
          rw [List.singleton_append, List.getLast?_singleton, Option.any_some]
          split
          next hcut => rw [sentencePieces, if_pos hcut]
          next hcut => rw [sentencePieces_cons hcut]; rfl
      | cons d t =>
          have hcut : ¬ (endsSentence c && (d :: t ++ s).head?.any isBlank) = true := fun hcut => by
            obtain ⟨hc, hd⟩ := Bool.and_eq_true_iff.mp hcut
            have hblank : isBlank d = true := hd
            rw [h c d (List.prefix_append [c, d] t).isInfix hc] at hblank
            cases hblank
          rw [List.cons_append, sentencePieces_cons hcut, ih (h.of_isInfix (List.suffix_cons c _).isInfix),
            List.getLast?_cons_cons]
          split
          next => rfl
          next => rw [List.modifyHead_modifyHead]; rfl

theorem sentencePieces_cons_blank (hb : isBlank b = true) (s : List Char) :
    sentencePieces (b :: s) = (sentencePieces s).modifyHead (b :: ·) := by
  refine sentencePieces_cons fun hcut => ?_
  rw [not_blank_of_endsSentence (Bool.and_eq_true_iff.mp hcut).1] at hb
  cases hb

theorem sentencePieces_of_gap (h : Gap s) : sentencePieces s = [s] := by
  induction s with
  | nil => rfl
  | cons b s ih =>
      rw [sentencePieces_cons_blank (h b List.mem_cons_self), ih fun c hc => h c (List.mem_cons_of_mem _ hc)]
      rfl

theorem sentences_of_gap (h : Gap s) : sentences s = [] := by
  rw [sentences_eq, sentencePieces_of_gap h, tidied_cons_of_gap h]
  rfl

theorem tidied_modifyHead_blank (hb : isBlank b = true) (ps : List (List Char)) :
    tidied (ps.modifyHead (b :: ·)) = tidied ps := by
  cases ps with
  | nil => rfl
  | cons p ps => rw [List.modifyHead_cons, tidied, tidied, List.map_cons, List.map_cons, trim_cons_blank hb]

theorem sentences_gap_append (h : Gap w) (s : List Char) : sentences (w ++ s) = sentences s := by
  induction w with
  | nil => rfl
  | cons b w ih =>
      have hb : isBlank b = true := h b List.mem_cons_self
      rw [List.cons_append, sentences_eq, sentencePieces_cons_blank hb, tidied_modifyHead_blank hb, ← sentences_eq]
      exact ih fun c hc => h c (List.mem_cons_of_mem _ hc)

/-- A text without an inner cut is a sentence if it ends one, or if only blanks follow. -/
theorem sentences_append (ht : Tidy t) (hu : Unbroken t) (hs : s.head?.all isBlank = true)
    (h : Ended t ∨ Gap s) : sentences (t ++ s) = t :: sentences s := by
  have htrim : trim t = t := trim_of_tidy ht
  rw [sentences_eq, sentencePieces_append hu]
  split
  next => rw [tidied_cons_of_tidy (htrim.symm ▸ ht), htrim, sentences_eq]
  next hcut =>
    have hgap : Gap s := by
      rcases h with hend | hgap
      · cases s with
        | nil => exact fun c hc => by cases hc
        | cons b s => exact (hcut (Bool.and_eq_true_iff.mpr ⟨hend, hs⟩)).elim
      · exact hgap
    have htail : trim (t ++ s) = t := by rw [trim_append_gap hgap, htrim]
    rw [sentencePieces_of_gap hgap, List.modifyHead_cons, tidied_cons_of_tidy (htail.symm ▸ ht), htail,
      sentences_of_gap hgap]
    rfl

theorem eq_sentences_of_divides (h : Divides s l) : l = sentences s := by
  obtain ⟨hspaced, htidy, hunbroken, hended⟩ := h
  induction hspaced with
  | gap ha => exact (sentences_of_gap ha).symm
  | @cons a t s l ha hs hl ih =>
      have hnext : Ended t ∨ Gap s := by
        cases l with
        | nil => exact .inr hl.gap_of_nil
        | cons u l => exact .inl (hended t List.mem_cons_self)
      have hrest : l = sentences s := by
        refine ih (fun u hu => htidy u (List.mem_cons_of_mem _ hu))
          (fun u hu => hunbroken u (List.mem_cons_of_mem _ hu)) fun u hu => hended u ?_
        rw [List.dropLast_cons_of_ne_nil (by rintro rfl; cases hu)]
        exact List.mem_cons_of_mem _ hu
      rw [sentences_gap_append ha,
        sentences_append (htidy t List.mem_cons_self) (hunbroken t List.mem_cons_self) hs hnext, ← hrest]

/-- The sentences of a text are parts of it, not empty and without blanks at their ends. They have the words of
the text in order; within a sentence no blank follows the end of one, and each but the last ends as sentences
do. No other division of the text is like this. -/
theorem sentences_divide (s : List Char) :
    (∀ t ∈ sentences s, t <:+: s ∧ Tidy t ∧ Unbroken t) ∧ (sentences s).flatMap words = words s ∧
    (∀ t ∈ (sentences s).dropLast, Ended t) ∧ ∀ l, Divides s l ↔ l = sentences s := by
  obtain ⟨hspaced, htidy, hunbroken, hended⟩ := divides_sentences s
  refine ⟨fun t ht => ⟨hspaced.infix_of_mem ht, htidy t ht, hunbroken t ht⟩, flatMap_words_sentences s, hended,
    fun l => ⟨eq_sentences_of_divides, ?_⟩⟩
  rintro rfl
  exact divides_sentences s

/-- Neither a mark within a word nor a run of marks cuts a sentence short. -/
example : (sentences "Wait...  Is v1.2 out?!\nYes ".toList).map String.ofList =
    ["Wait...", "Is v1.2 out?!", "Yes"] := by decide

end CorpusIndex.Text
