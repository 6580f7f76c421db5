import CorpusIndex.Proofs.Except
import CorpusIndex.Proofs.Ingest.Packing

/-!
# Texts cut into chunks

The chunks of a text have its words in order, and only pieces of a sentence beyond the budget repeat any. No
chunk goes over a double line feed, none is beyond the budget, and none is closed before the next sentence would
take it beyond.
-/
namespace CorpusIndex

open Text

/-! ### Reading on -/

namespace Overlapping
variable {w o : ℕ} {ws piece : List (List Char)} {pieces : List (List (List Char))}

theorem ne_nil (h : Overlapping w o ws pieces) (hpiece : piece ∈ pieces) : piece ≠ [] := by
  induction h with
  | last hne _ =>
      rw [List.mem_singleton.mp hpiece]
      exact hne
  | next _ _ hfresh _ _ ih =>
      rcases List.mem_cons.mp hpiece with rfl | hpiece
      · simp [hfresh]
      · exact ih hpiece

/-- Pieces that repeat no word are the words. -/
theorem flatten_of_zero (h : Overlapping w 0 ws pieces) : pieces.flatten = ws := by
  generalize ho : 0 = o at h
  induction h with
  | last => simp
  | next _ hshared _ _ _ ih =>
      subst ho
      have hnil := List.eq_nil_of_length_eq_zero hshared
      subst hnil
      rw [List.flatten_cons, ih, List.append_nil]

end Overlapping

namespace Chunker
variable {c : Chunker} {IsSentence : List Char → Prop} {s p chunk content : List Char}
  {ws ws' ss chunks chunks' ps : List (List Char)} {first : Option (List Char)}

theorem Reads.append (h : c.Reads IsSentence ws chunks) (h' : c.Reads IsSentence ws' chunks') :
    c.Reads IsSentence (ws ++ ws') (chunks ++ chunks') := by
  induction h with
  | done => exact h'
  | chunk hne _ ih =>
      rw [List.append_assoc]
      exact .chunk hne ih
  | cut hs hlong hpieces _ ih =>
      rw [List.append_assoc, List.append_assoc]
      exact .cut hs hlong hpieces ih

theorem Reads.words_ne_nil (h : c.Reads IsSentence ws chunks) (hchunk : chunk ∈ chunks) : words chunk ≠ [] := by
  induction h with
  | done => cases hchunk
  | chunk hne _ ih =>
      rcases List.mem_cons.mp hchunk with rfl | hchunk
      · exact hne
      · exact ih hchunk
  | cut _ _ hpieces _ ih =>
      rcases List.mem_append.mp hchunk with hchunk | hchunk
      · exact hpieces.ne_nil (List.mem_map_of_mem hchunk)
      · exact ih hchunk

/-- Without overlap the words of the chunks are the words. -/
theorem Reads.flatMap_words (ho : c.overlap = 0) (h : c.Reads IsSentence ws chunks) : chunks.flatMap words = ws := by
  induction h with
  | done => rfl
  | chunk _ _ ih => rw [List.flatMap_cons, ih]
  | cut _ _ hpieces _ ih =>
      rw [ho] at hpieces
      rw [List.flatMap_append, ih, List.flatMap_def, hpieces.flatten_of_zero]

theorem Packing.reads (h : c.Packing first ss chunks) (hss : ∀ s ∈ ss, words s ≠ [] ∧ IsSentence s) :
    c.Reads IsSentence (ss.flatMap words) chunks := by
  induction h with
  | done => exact .done
  | @packed s more rest chunks next hfits _ _ ih =>
      rw [List.flatMap_append, ← words_joinWith]
      apply Reads.chunk
      · rw [words_joinWith, List.flatMap_cons]
        simp [(hss s (by simp)).1]
      · exact ih fun t ht => hss t (List.mem_append_right _ ht)
  | @cut s rest chunks next hlong _ ih =>
      obtain ⟨hwords, hs⟩ := hss s List.mem_cons_self
      rw [List.flatMap_cons]
      apply Reads.cut hs hlong
      · rw [map_words_cut]
        exact overlapping_windows hwords
      · exact ih fun t ht => hss t (List.mem_cons_of_mem _ ht)

/-! ### Paragraphs -/

/-- A paragraph gives no chunk if it is blank, one if it is within the budget, and otherwise its sentences are
packed. -/
theorem paragraphChunks_cases (c : Chunker) (p : List Char) :
    (words p = [] ∧ c.paragraphChunks p = []) ∨
    (words p ≠ [] ∧ c.estimate (words p).length ≤ c.budget ∧ c.paragraphChunks p = [squeeze (trim p)]) ∨
    ∃ first, c.Packing first (sentences (trim p)) (c.paragraphChunks p) := by
  by_cases hblank : trim p = []
  · have hwords := words_trim p
    rw [hblank, words_nil] at hwords
    simp [paragraphChunks, hblank, ← hwords]
  · have hwords : words p ≠ [] := words_trim p ▸ (inked_of_trim hblank).words_ne_nil
    by_cases hfits : c.fits (trim p) = true
    · have hle := fits_iff.mp hfits
      rw [words_trim] at hle
      simp [paragraphChunks, hblank, hfits, hwords, hle]
    · obtain ⟨first, hpacking, _⟩ := packing_pack (c := c) [] (sentences (trim p)) (by simp)
        fun s hs => (inked_of_mem_sentences hs).words_ne_nil
      have hchunks : c.paragraphChunks p = c.pack [] (sentences (trim p)) := by
        simp [paragraphChunks, hblank, hfits]
      exact .inr (.inr ⟨first, hchunks ▸ hpacking⟩)

theorem reads_paragraphChunks (hp : ∀ s ∈ sentences (trim p), IsSentence s) :
    c.Reads IsSentence (words p) (c.paragraphChunks p) := by
  rcases c.paragraphChunks_cases p with ⟨hwords, hchunks⟩ | ⟨hwords, _, hchunks⟩ | ⟨first, hpacking⟩
  · rw [hwords, hchunks]
    exact .done
  · have hsame : words (squeeze (trim p)) = words p := by rw [words_squeeze, words_trim]
    rw [hchunks, ← List.append_nil (words p), ← hsame]
    exact .chunk (hsame ▸ hwords) .done
  · rw [← words_trim, ← flatMap_words_sentences]
    exact hpacking.reads fun s hs => ⟨(inked_of_mem_sentences hs).words_ne_nil, hp s hs⟩

theorem reads_paragraphs (hps : ∀ p ∈ ps, ∀ s ∈ sentences (trim p), IsSentence s) :
    c.Reads IsSentence (ps.flatMap words) (ps.flatMap c.paragraphChunks) := by
  induction ps with
  | nil => exact .done
  | cons p ps ih =>
      apply Reads.append
      · exact reads_paragraphChunks (hps p List.mem_cons_self)
      · exact ih fun q hq => hps q (List.mem_cons_of_mem _ hq)

theorem paragraphChunks_congr {q : List Char} (h : trim p = trim q) : c.paragraphChunks p = c.paragraphChunks q := by
  simp only [paragraphChunks, h]

theorem chunkText_append (c : Chunker) (s t : List Char) :
    c.chunkText (s ++ '\n' :: '\n' :: t) = c.chunkText s ++ c.chunkText t := by
  have h := flatMap_paragraphs_append (f := c.paragraphChunks) rfl
    (fun s => paragraphChunks_congr (trim_cons_blank rfl s))
    (fun s => paragraphChunks_congr (trim_concat_blank rfl s)) [] s t
  rw [modifyHead_nil_append, modifyHead_nil_append] at h
  exact h

/-- A sentence of a paragraph of the text. -/
def IsSentenceOf (content s : List Char) : Prop := ∃ p ∈ paragraphs content, s ∈ sentences (trim p)

/-- The chunks of a text read all its words in order, and each of them some. Only the pieces of a sentence
beyond the budget repeat words. The chunks of two texts with a double line feed between them are those of the
one and then those of the other. -/
theorem chunks_read_words_in_order (c : Chunker) (content : List Char) :
    c.Reads (IsSentenceOf content) (words content) (c.chunkText content) ∧
    (∀ chunk ∈ c.chunkText content, words chunk ≠ []) ∧
    (∀ before after, content = before ++ '\n' :: '\n' :: after →
      c.chunkText content = c.chunkText before ++ c.chunkText after) ∧
    (c.overlap = 0 → (c.chunkText content).flatMap words = words content) := by
  have hreads : c.Reads (IsSentenceOf content) (words content) (c.chunkText content) := by
    rw [← flatMap_words_paragraphs]
    exact reads_paragraphs fun p hp s hs => ⟨p, hp, hs⟩
  refine ⟨hreads, fun chunk => hreads.words_ne_nil, ?_, fun ho => hreads.flatMap_words ho⟩
  rintro before after rfl
  exact chunkText_append c before after

/-- A sentence beyond a budget of four, then two within it, and another paragraph. -/
def runOn : List Char := "Run on from one word to the next. Stop here. Halt there.\n\nGo on.".toList

/-- The long sentence is cut into pieces that share a word, or none without overlap. -/
theorem chunks_read_words_in_order_runOn :
    (∃ c, ofSettings { maxTokens := 4, overlap := 0.4 } = .ok c ∧
      (c.chunkText runOn).map String.ofList = ["Run on from", "from one word", "word to the", "the next.",
        "Stop here.", "Halt there.", "Go on."] ∧
      c.Reads (IsSentenceOf runOn) (words runOn) (c.chunkText runOn) ∧
      c.chunkText runOn = c.chunkText "Run on from one word to the next. Stop here. Halt there.".toList ++
        c.chunkText "Go on.".toList) ∧
    ∃ c, ofSettings { maxTokens := 4, overlap := 0 } = .ok c ∧ c.overlap = 0 ∧
      (c.chunkText runOn).flatMap words = words runOn := by
  have hshared : (ofSettings { maxTokens := 4, overlap := 0.4 }).toOption.map
      (fun c => (c.chunkText runOn).map String.ofList) =
        some ["Run on from", "from one word", "word to the", "the next.", "Stop here.", "Halt there.",
          "Go on."] := by decide +kernel
  have hplain : (ofSettings { maxTokens := 4, overlap := 0 }).toOption.map (·.overlap) = some 0 := by
    decide +kernel
  obtain ⟨c, hc, hchunks⟩ := map_toOption_eq_some.mp hshared
  obtain ⟨d, hd, hoverlap⟩ := map_toOption_eq_some.mp hplain
  obtain ⟨hreads, _, happart, _⟩ := chunks_read_words_in_order c runOn
  obtain ⟨_, _, _, hflat⟩ := chunks_read_words_in_order d runOn
  exact ⟨⟨c, hc, hchunks, hreads, happart _ _ (by decide)⟩, d, hd, hoverlap, hflat hoverlap⟩

/-! ### The budget -/

theorem Packing.within (h : c.Packing first ss chunks) (hchunk : chunk ∈ chunks) :
    c.estimate (words chunk).length ≤ c.budget ∨ ∃ s ∈ ss, words chunk ∈ c.windows (words s) := by
  induction h with
  | done => cases hchunk
  | packed hfits _ _ ih =>
      rcases List.mem_cons.mp hchunk with rfl | hchunk
      · rw [words_joinWith]
        exact .inl hfits
      · exact (ih hchunk).imp_right fun ⟨s, hs, hin⟩ => ⟨s, List.mem_append_right _ hs, hin⟩
  | @cut s rest chunks next _ _ ih =>
      rcases List.mem_append.mp hchunk with hchunk | hchunk
      · exact .inr ⟨s, List.mem_cons_self, map_words_cut c s ▸ List.mem_map_of_mem hchunk⟩
      · exact (ih hchunk).imp_right fun ⟨t, ht, hin⟩ => ⟨t, List.mem_cons_of_mem _ ht, hin⟩

theorem length_words_le {l : List (List Char)} (hs : s ∈ l) : (words s).length ≤ (l.flatMap words).length := by
  rw [List.flatMap_def]
  exact (List.sublist_flatten_of_mem (List.mem_map_of_mem hs)).length_le

theorem IsSentenceOf.length_words_le (h : IsSentenceOf content s) :
    (words s).length ≤ (words content).length := by
  obtain ⟨p, hp, hs⟩ := h
  have hsentence := Chunker.length_words_le hs
  have hparagraph := Chunker.length_words_le hp
  rw [flatMap_words_sentences, words_trim] at hsentence
  rw [flatMap_words_paragraphs] at hparagraph
  omega

/-- With a token for three quarters of a word and windows of three quarters of the budget, no chunk is beyond
the budget, and a chunk of whole sentences has no room for the first of the next such chunk. -/
theorem chunks_stay_within_budget (hbudget : 0 < c.budget)
    (hestimate : ∀ k ≤ (words content).length, c.estimate k = 4 * k / 3)
    (hwindow : c.window = max 1 (3 * c.budget / 4)) :
    (∀ chunk ∈ c.chunkText content, c.estimate (words chunk).length ≤ c.budget) ∧
    ∀ p ∈ paragraphs content, (c.paragraphChunks p).length ≤ 1 ∨
      ∃ first, c.Packing first (sentences (trim p)) (c.paragraphChunks p) := by
  constructor
  · intro chunk hchunk
    obtain ⟨p, hp, hchunk⟩ := List.mem_flatMap.mp hchunk
    rcases c.paragraphChunks_cases p with ⟨_, hchunks⟩ | ⟨_, hfits, hchunks⟩ | ⟨first, hpacking⟩
    · rw [hchunks] at hchunk
      cases hchunk
    · rw [hchunks] at hchunk
      rw [List.mem_singleton.mp hchunk, words_squeeze, words_trim]
      exact hfits
    · rcases hpacking.within hchunk with hfits | ⟨s, hs, hin⟩
      · exact hfits
      · obtain ⟨hpart, hle⟩ := infix_of_mem_windows hin
        have hcontent := IsSentenceOf.length_words_le ⟨p, hp, hs⟩
        have hpiece := hpart.length_le
        rw [hestimate _ (by omega)]
        omega
  · intro p _
    rcases c.paragraphChunks_cases p with ⟨_, hchunks⟩ | ⟨_, _, hchunks⟩ | hpacking
    · simp [hchunks]
    · simp [hchunks]
    · exact .inr hpacking

/-- Both packed sentences would take five of four tokens. -/
theorem chunks_stay_within_budget_runOn : ∃ c, ofSettings { maxTokens := 4, overlap := 0.4 } = .ok c ∧
    0 < c.budget ∧ (∀ k ≤ (words runOn).length, c.estimate k = 4 * k / 3) ∧
    c.window = max 1 (3 * c.budget / 4) ∧
    (∀ chunk ∈ c.chunkText runOn, c.estimate (words chunk).length ≤ c.budget) ∧
    ∃ p ∈ paragraphs runOn, (c.paragraphChunks p).length = 6 ∧
      ∃ first, c.Packing first (sentences (trim p)) (c.paragraphChunks p) := by
  have hlength : (words runOn).length = 14 := by decide
  have hfirst : ∃ p, (paragraphs runOn).head? = some p := ⟨_, rfl⟩
  obtain ⟨p, hp⟩ := hfirst
  have hfields : (ofSettings { maxTokens := 4, overlap := 0.4 }).toOption.map
      (fun c => (c.budget, c.window, (List.range 15).map c.estimate,
        ((paragraphs runOn).head?.map c.paragraphChunks).map (·.length))) =
        some (4, 3, (List.range 15).map (4 * · / 3), some 6) := by decide +kernel
  obtain ⟨c, hc, hall⟩ := map_toOption_eq_some.mp hfields
  simp only [Prod.mk.injEq, hp, Option.map_some, Option.some.injEq] at hall
  obtain ⟨hbudget, hwindow, hestimates, hsix⟩ := hall
  have hestimate : ∀ k ≤ (words runOn).length, c.estimate k = 4 * k / 3 := by
    intro k hk
    exact List.map_inj_left.mp hestimates k (List.mem_range.mpr (by omega))
  have hpos : 0 < c.budget := by omega
  have hthree : c.window = max 1 (3 * c.budget / 4) := by omega
  obtain ⟨hwithin, hpacked⟩ := chunks_stay_within_budget hpos hestimate hthree
  have hin : p ∈ paragraphs runOn := List.mem_of_mem_head? hp
  exact ⟨c, hc, hpos, hestimate, hthree, hwithin, p, hin, hsix, (hpacked p hin).resolve_left (by omega)⟩

end Chunker
end CorpusIndex
