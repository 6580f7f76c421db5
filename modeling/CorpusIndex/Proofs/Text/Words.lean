import CorpusIndex.Proofs.Text.Runs
import CorpusIndex.Text.Sentences
import Mathlib.Data.List.DropRight

/-!
# The words of a text and of its parts

A blank separates words wherever it stands: the words of a text are those before it and those after it. This
gives the words of a text that is trimmed, joined or squeezed, and of one cut into sentences or paragraphs,
where no cut goes through a word and none loses one.
-/
namespace CorpusIndex.Text

variable {β : Type} {b c : Char} {s t w : List Char} {l ws : List (List Char)}

/-! ### Words -/

@[simp] theorem words_nil : words [] = [] := rfl

/-- A blank separates the words before it from those after it. -/
theorem words_append_blank (hb : isBlank b = true) (s t : List Char) :
    words (s ++ b :: t) = words s ++ words t := runs_append (by rw [hb]; rfl) s t

theorem words_cons_blank (hb : isBlank b = true) (s : List Char) : words (b :: s) = words s :=
  words_append_blank hb [] s

theorem words_concat_blank (hb : isBlank b = true) (s : List Char) : words (s ++ [b]) = words s := by
  rw [words_append_blank hb, words_nil, List.append_nil]

theorem words_of_unblank (hne : w ≠ []) (hw : ∀ c ∈ w, isBlank c = false) : words w = [w] :=
  runs_of_forall hne fun c hc => by rw [hw c hc]; rfl

/-- A word of a text is a text of one word. -/
theorem words_of_mem_words (h : w ∈ words s) : words w = [w] := by
  apply words_of_unblank (ne_nil_of_mem_runs h)
  intro c hc
  simpa using of_mem_runs h hc

/-! ### Trimming and joining -/

theorem words_dropWhile (s : List Char) : words (s.dropWhile isBlank) = words s := by
  induction s with
  | nil => rfl
  | cons b s ih =>
      cases hb : isBlank b with
      | true => rw [List.dropWhile_cons_of_pos hb, words_cons_blank hb, ih]
      | false => rw [List.dropWhile_cons_of_neg (by simp [hb])]

theorem words_rdropWhile (s : List Char) : words (s.rdropWhile isBlank) = words s := by
  induction s using List.reverseRecOn with
  | nil => rfl
  | append_singleton s b ih =>
      cases hb : isBlank b with
      | true => rw [List.rdropWhile_concat_pos _ _ _ hb, words_concat_blank hb, ih]
      | false => rw [List.rdropWhile_concat_neg _ _ _ (by simp [hb])]

theorem words_trim (s : List Char) : words (trim s) = words s := by
  change words ((s.dropWhile isBlank).rdropWhile isBlank) = words s
  rw [words_rdropWhile, words_dropWhile]

theorem words_joinWith (l : List (List Char)) : words (joinWith [' '] l) = l.flatMap words := by
  fun_induction joinWith [' '] l with
  | case1 => rfl
  | case2 s => simp
  | case3 s rest _ ih =>
      rw [List.append_assoc, List.singleton_append, words_append_blank rfl, ih, List.flatMap_cons]

/-- Words with single spaces between them are read back. -/
theorem words_join_words (h : ∀ w ∈ ws, words w = [w]) : words (joinWith [' '] ws) = ws := by
  rw [words_joinWith, List.flatMap_congr h, List.flatMap_singleton']

theorem words_squeeze (s : List Char) : words (squeeze s) = words s :=
  words_join_words fun _ => words_of_mem_words

theorem trim_cons_blank (hb : isBlank b = true) (s : List Char) : trim (b :: s) = trim s := by
  rw [trim, trimBy, List.dropWhile_cons_of_pos hb, ← trimBy, ← trim]

theorem trim_concat_blank (hb : isBlank b = true) (s : List Char) : trim (s ++ [b]) = trim s := by
  rw [trim, trimBy, List.dropWhile_append, trim, trimBy]
  cases h : s.dropWhile isBlank with
  | nil => simp [hb]
  | cons d rest => simp [hb]

/-! ### Sentences -/

/-- The first of several texts continues another. -/
theorem modifyHead_append_cons (s : List Char) (c : Char) (l : List (List Char)) :
    (l.modifyHead (c :: ·)).modifyHead (s ++ ·) = l.modifyHead ((s ++ [c]) ++ ·) := by
  cases l with
  | nil => rfl
  | cons t l => simp

theorem modifyHead_nil_append (l : List (List Char)) : l.modifyHead ([] ++ ·) = l := by
  cases l <;> rfl

/-- No word goes on where the second text begins with a blank. -/
theorem words_append_of_head (h : t.head?.all isBlank = true) (s : List Char) :
    words (s ++ t) = words s ++ words t := by
  cases t with
  | nil => simp
  | cons b t => rw [words_append_blank h, words_cons_blank h]

theorem sentencePieces_ne_nil (s : List Char) : sentencePieces s ≠ [] := by
  cases s with
  | nil => simp [sentencePieces]
  | cons c s =>
      unfold sentencePieces
      split
      · simp
      · split <;> simp

theorem sentencePieces_cons (h : ¬ (endsSentence c && s.head?.any isBlank) = true) :
    sentencePieces (c :: s) = (sentencePieces s).modifyHead (c :: ·) := by
  rw [sentencePieces, if_neg h]
  cases hs : sentencePieces s with
  | nil => exact (sentencePieces_ne_nil s hs).elim
  | cons piece more => rfl

/-- A cut after the end of a sentence has a blank after it. -/
theorem flatMap_words_sentencePieces_from (s t : List Char) :
    ((sentencePieces t).modifyHead (s ++ ·)).flatMap words = words (s ++ t) := by
  induction t generalizing s with
  | nil => simp [sentencePieces]
  | cons c t ih =>
      by_cases h : (endsSentence c && t.head?.any isBlank) = true
      · have hblank : t.head?.all isBlank = true := by
          cases t with
          | nil => rfl
          | cons d t => simpa using (Bool.and_eq_true_iff.mp h).2
        have hrest := ih []
        rw [modifyHead_nil_append, List.nil_append] at hrest
        rw [sentencePieces, if_pos h, List.modifyHead_cons, List.flatMap_cons, hrest, List.append_cons s c t,
          words_append_of_head hblank]
      · rw [sentencePieces_cons h, modifyHead_append_cons, ih, List.append_assoc, List.singleton_append]

theorem flatMap_filter_ne_nil {f : List Char → List β} (hnil : f [] = []) (l : List (List Char)) :
    (l.filter (· ≠ [])).flatMap f = l.flatMap f := by
  induction l with
  | nil => rfl
  | cons s l ih =>
      by_cases hs : s = []
      · rw [List.filter_cons_of_neg (by simpa using hs), ih, List.flatMap_cons, hs, hnil, List.nil_append]
      · rw [List.filter_cons_of_pos (by simpa using hs), List.flatMap_cons, List.flatMap_cons, ih]

/-- The words of a text are those of its sentences. -/
theorem flatMap_words_sentences (s : List Char) : (sentences s).flatMap words = words s := by
  have hpieces := flatMap_words_sentencePieces_from [] s
  rw [modifyHead_nil_append, List.nil_append] at hpieces
  rw [sentences, flatMap_filter_ne_nil words_nil, List.flatMap_map]
  simpa only [words_trim] using hpieces

/-! ### Paragraphs -/

theorem paragraphs_ne_nil (s : List Char) : paragraphs s ≠ [] := by
  fun_cases paragraphs s <;> simp

theorem paragraphs_cons (h : ¬ (c = '\n' ∧ s.head? = some '\n')) :
    paragraphs (c :: s) = (paragraphs s).modifyHead (c :: ·) := by
  rw [paragraphs]
  · cases hs : paragraphs s with
    | nil => exact (paragraphs_ne_nil s hs).elim
    | cons piece more => rfl
  · rintro rest rfl rfl
    exact h ⟨rfl, rfl⟩

theorem flatMap_words_paragraphs_from (s t : List Char) :
    ((paragraphs t).modifyHead (s ++ ·)).flatMap words = words (s ++ t) := by
  fun_induction paragraphs t generalizing s with
  | case1 => simp
  | case2 rest ih =>
      have hrest := ih []
      rw [modifyHead_nil_append, List.nil_append] at hrest
      rw [List.modifyHead_cons, List.flatMap_cons, hrest, words_append_blank rfl, words_cons_blank rfl,
        List.append_nil]
  | case3 c rest _ hnil => exact (paragraphs_ne_nil rest hnil).elim
  | case4 c rest _ piece more hpieces ih =>
      have hgoes := ih (s ++ [c])
      rw [hpieces, List.modifyHead_cons, List.append_assoc, List.append_assoc] at hgoes
      exact hgoes

/-- The words of a text are those of its paragraphs. -/
theorem flatMap_words_paragraphs (s : List Char) : (paragraphs s).flatMap words = words s := by
  have h := flatMap_words_paragraphs_from [] s
  rw [modifyHead_nil_append, List.nil_append] at h
  exact h

section Junctions
variable {f : List Char → List β} (hnil : f [] = [])
  (hleft : ∀ s, f ('\n' :: s) = f s) (hright : ∀ s, f (s ++ ['\n']) = f s)
include hnil hleft

/-- What is made of the paragraphs of a text is made of them with a line feed before it. -/
theorem flatMap_paragraphs_feed (s : List Char) :
    (paragraphs ('\n' :: s)).flatMap f = (paragraphs s).flatMap f := by
  induction s with
  | nil => simp [paragraphs, hnil, hleft]
  | cons c s ih =>
      by_cases hc : c = '\n'
      · subst hc
        rw [paragraphs, List.flatMap_cons, hnil, ih, List.nil_append]
      · rw [paragraphs_cons (by simpa using hc)]
        cases hs : paragraphs (c :: s) with
        | nil => exact (paragraphs_ne_nil _ hs).elim
        | cons piece more => simp [hleft]

include hright

/-- What is made of the paragraphs of two texts with a double line feed between them is made of each on its
own, wherever the paragraphs of the whole are cut. -/
theorem flatMap_paragraphs_append (u s t : List Char) :
    ((paragraphs (s ++ '\n' :: '\n' :: t)).modifyHead (u ++ ·)).flatMap f =
      ((paragraphs s).modifyHead (u ++ ·)).flatMap f ++ (paragraphs t).flatMap f := by
  fun_induction paragraphs s generalizing u with
  | case1 => simp [paragraphs]
  | case2 rest ih =>
      have hrest := ih []
      rw [modifyHead_nil_append, modifyHead_nil_append] at hrest
      rw [List.cons_append, List.cons_append, paragraphs, List.modifyHead_cons, List.modifyHead_cons,
        List.flatMap_cons, List.flatMap_cons, hrest, List.append_assoc]
  | case3 c rest _ hnil => exact (paragraphs_ne_nil rest hnil).elim
  | case4 c rest hsingle piece more hpieces ih =>
      rw [List.cons_append]
      by_cases hlast : c = '\n' ∧ rest = []
      · -- the single line feed at the end of the first text joins the first of the two
        obtain ⟨rfl, rfl⟩ := hlast
        cases hpieces
        rw [List.nil_append, paragraphs, List.modifyHead_cons, List.modifyHead_cons, List.flatMap_cons,
          flatMap_paragraphs_feed hnil hleft]
        simp [hright]
      · have hcons : ¬ (c = '\n' ∧ (rest ++ '\n' :: '\n' :: t).head? = some '\n') := by
          rintro ⟨rfl, hhead⟩
          cases rest with
          | nil => exact hlast ⟨rfl, rfl⟩
          | cons d rest =>
              cases hhead
              exact hsingle rest rfl rfl
        have hgoes := ih (u ++ [c])
        rw [hpieces] at hgoes
        rw [paragraphs_cons hcons, modifyHead_append_cons, hgoes]
        simp

end Junctions

end CorpusIndex.Text
