import CorpusIndex.Build.Tree
import CorpusIndex.Chunk
import CorpusIndex.Composition
import CorpusIndex.Proofs.Text.Trimming
import Mathlib.Data.List.Nodup

/-!
# Chunks of documents

A text with a character that is not blank gives at least one chunk, however it is cut, and any other gives
none. The chunks of documents have different ids exactly where the documents with such texts do, in the order of
the documents and of their texts. No chunk of a text file is named like a summary, and nothing with a number at
its end like a node that stands for an index.
-/
namespace CorpusIndex

namespace Chunker
open Text
variable {c : Chunker} {s current : List Char}

/-! ### A chunk at least -/

theorem windows_ne_nil {ws : List (List Char)} (h : ws ≠ []) : c.windows ws ≠ [] := by
  unfold windows
  split
  · simp
  · simp [h]

theorem cut_ne_nil (h : Inked s) : c.cut s ≠ [] := by
  simpa only [cut, ne_eq, List.map_eq_nil_iff] using windows_ne_nil h.words_ne_nil

theorem pack_ne_nil (h : current ≠ []) (rest : List (List Char)) : c.pack current rest ≠ [] := by
  induction rest generalizing current with
  | nil => simp [pack, h]
  | cons s rest ih =>
      unfold pack
      simp only [List.isEmpty_iff, h, if_false]
      split
      · exact ih (by simp)
      · split <;> simp

theorem pack_sentences_ne_nil {l : List (List Char)} (hl : l ≠ []) (h : ∀ s ∈ l, Inked s) :
    c.pack [] l ≠ [] := by
  cases l with
  | nil => exact (hl rfl).elim
  | cons s rest =>
      have hs := h s List.mem_cons_self
      unfold pack
      simp only [List.isEmpty_nil, if_true, List.nil_append]
      split
      · exact pack_ne_nil hs.ne_nil rest
      · simp [cut_ne_nil hs]

theorem paragraphChunks_ne_nil (h : Inked s) : c.paragraphChunks s ≠ [] := by
  unfold paragraphChunks
  simp only [List.isEmpty_iff, h.trim.ne_nil, if_false]
  split
  · simp
  · exact pack_sentences_ne_nil h.trim.sentences_ne_nil fun _ => inked_of_mem_sentences

/-- A text that is not blank has a chunk. -/
theorem chunkText_ne_nil (h : Inked s) : c.chunkText s ≠ [] := by
  obtain ⟨t, ht, hink⟩ := h.paragraph
  obtain ⟨chunk, hchunk⟩ := List.exists_mem_of_ne_nil _ (paragraphChunks_ne_nil hink (c := c))
  exact List.ne_nil_of_mem (List.mem_flatMap.mpr ⟨t, ht, hchunk⟩)

/-- Only a paragraph with a word is cut into chunks. -/
theorem chunkText_ne_nil_iff : c.chunkText s ≠ [] ↔ Inked s := by
  refine ⟨fun h => inked_of_words_ne_nil fun hnil => h ?_, chunkText_ne_nil⟩
  rw [← flatMap_words_paragraphs, List.flatMap_eq_nil_iff] at hnil
  refine List.flatMap_eq_nil_iff.mpr fun t ht => ?_
  have htrim : trim t = [] := by
    by_contra hne
    exact (inked_of_trim hne).words_ne_nil ((words_trim t).trans (hnil t ht))
  rw [paragraphChunks, htrim]
  rfl

end Chunker

/-! ### Ids -/

/-- Where a mark does not come again, the text is cut at it in one way only. -/
theorem append_cons_inj {α : Type*} {mark : α} {a b d e : List α} (hd : mark ∉ d) (he : mark ∉ e)
    (h : a ++ mark :: d = b ++ mark :: e) : a = b ∧ d = e := by
  rcases List.append_eq_append_iff.mp h with ⟨t, rfl, ht⟩ | ⟨t, rfl, ht⟩
  · cases t with
    | nil => exact ⟨(List.append_nil a).symm, List.tail_eq_of_cons_eq ht⟩
    | cons x t =>
        refine (hd ?_).elim
        rw [List.tail_eq_of_cons_eq ht]
        simp
  · cases t with
    | nil => exact ⟨List.append_nil b, (List.tail_eq_of_cons_eq ht).symm⟩
    | cons x t =>
        refine (he ?_).elim
        rw [List.tail_eq_of_cons_eq ht]
        simp

theorem toList_chunkId (doc : String) (i : Nat) :
    (chunkId doc i).toList = doc.toList ++ ':' :: Nat.toDigits 10 i := by
  simp [chunkId]

theorem colon_not_mem_toDigits (i : Nat) : ':' ∉ Nat.toDigits 10 i := fun h => by
  cases Nat.isDigit_of_mem_toDigits (by decide) (by decide) h

theorem chunkId_injective {d e : String} {i j : Nat} (h : chunkId d i = chunkId e j) : d = e ∧ i = j := by
  have hlist := congrArg String.toList h
  rw [toList_chunkId, toList_chunkId] at hlist
  obtain ⟨hdoc, hdigits⟩ := append_cons_inj (colon_not_mem_toDigits i) (colon_not_mem_toDigits j) hlist
  refine ⟨String.toList_inj.mp hdoc, ?_⟩
  rw [← Nat.ofDigitChars_ten_toDigits (n := i), hdigits, Nat.ofDigitChars_ten_toDigits]

theorem toList_summaryId (tree : String) (k : Nat) :
    (Forest.summaryId tree k).toList = (tree ++ ":summary").toList ++ ':' :: Nat.toDigits 10 k := by
  simp [Forest.summaryId]

/-- The name of a document that is a text file. -/
def IsTextFile (doc : String) : Prop := ∃ stem, doc = stem ++ ".txt"

/-- Before the number of a chunk stands `t`, and before that of a summary `y`. -/
theorem IsTextFile.chunkId_ne_summaryId {doc : String} (h : IsTextFile doc) (i : Nat) (tree : String)
    (k : Nat) : chunkId doc i ≠ Forest.summaryId tree k := by
  obtain ⟨stem, rfl⟩ := h
  intro heq
  have hlist := congrArg String.toList heq
  rw [toList_chunkId, toList_summaryId] at hlist
  have hnames := (append_cons_inj (colon_not_mem_toDigits i) (colon_not_mem_toDigits k) hlist).1
  have hlast := congrArg List.getLast? hnames
  simp at hlast

theorem numbered_ne_standInId (name : List Char) (i : Nat) (index : String) :
    name ++ ':' :: Nat.toDigits 10 i ≠ (standInId index).toList := by
  intro heq
  have hsplit : (standInId index).toList = index.toList ++ ':' :: "index".toList := by simp [standInId]
  rw [hsplit] at heq
  have hdigits := (append_cons_inj (colon_not_mem_toDigits i) (by decide) heq).2
  have hdigit : 'i'.isDigit = true :=
    Nat.isDigit_of_mem_toDigits (b := 10) (n := i) (by decide) (by decide) (hdigits ▸ by decide)
  cases hdigit

theorem chunkId_ne_standInId (doc : String) (i : Nat) (index : String) :
    chunkId doc i ≠ standInId index := fun h =>
  numbered_ne_standInId doc.toList i index (by rw [← h, toList_chunkId])

theorem summaryId_ne_standInId (tree : String) (k : Nat) (index : String) :
    Forest.summaryId tree k ≠ standInId index := fun h =>
  numbered_ne_standInId _ k index (by rw [← h, toList_summaryId])

theorem standInId_injective {i j : String} (h : standInId i = standInId j) : i = j := by
  have hlist := congrArg String.toList h
  simpa [standInId, String.toList_inj] using hlist

namespace Chunker
variable {c : Chunker} {docs : List Document}

/-- Ids of the chunks of documents, in reading order. -/
def chunkIds (c : Chunker) (docs : List Document) : List String :=
  docs.flatMap fun d => (List.range (c.chunkText d.text.toList).length).map (chunkId d.id)

theorem chunkNode_id (doc : Document) (n i : Nat) (text : String) :
    (chunkNode doc n i text).id = chunkId doc.id i ∧ (chunkNode doc n i text).embedding = none := by
  unfold chunkNode Node.setLink
  split <;> split <;> exact ⟨rfl, rfl⟩

theorem nodesOfAll_ids (c : Chunker) (docs : List Document) :
    (c.nodesOfAll docs).map (·.id) = c.chunkIds docs := by
  rw [nodesOfAll, chunkIds, List.map_flatMap]
  refine congrArg (docs.flatMap ·) (funext fun d => ?_)
  rw [nodesOf, List.map_map, List.range_eq_range', ← List.zipIdx_map_snd 0 (c.chunkText d.text.toList),
    List.map_map]
  exact List.map_congr_left fun t _ => (chunkNode_id d _ t.2 _).1

theorem nodesOfAll_unembedded {n : Node} (h : n ∈ c.nodesOfAll docs) : n.embedding = none := by
  obtain ⟨d, _, h⟩ := List.mem_flatMap.mp h
  obtain ⟨t, _, rfl⟩ := List.mem_map.mp h
  exact (chunkNode_id ..).2

/-- Chunks have the same id only if their documents do, and documents without a word have no chunks. -/
theorem nodup_chunkIds_iff : (c.chunkIds docs).Nodup ↔
    docs.Pairwise fun d e => Text.Inked d.text.toList → Text.Inked e.text.toList → d.id ≠ e.id := by
  have hdisjoint (d e : Document) :
      ((List.range (c.chunkText d.text.toList).length).map (chunkId d.id)).Disjoint
        ((List.range (c.chunkText e.text.toList).length).map (chunkId e.id)) ↔
      (Text.Inked d.text.toList → Text.Inked e.text.toList → d.id ≠ e.id) := by
    simp only [← chunkText_ne_nil_iff (c := c), ← List.length_pos_iff]
    constructor
    · intro h hd he heq
      exact h (List.mem_map_of_mem (List.mem_range.mpr hd))
        (heq ▸ List.mem_map_of_mem (List.mem_range.mpr he))
    · intro hne x hx hy
      obtain ⟨i, hi, rfl⟩ := List.mem_map.mp hx
      obtain ⟨j, hj, heq⟩ := List.mem_map.mp hy
      exact hne (Nat.zero_lt_of_lt (List.mem_range.mp hi)) (Nat.zero_lt_of_lt (List.mem_range.mp hj))
        (chunkId_injective heq).1.symm
  rw [chunkIds, List.nodup_flatMap]
  have hown : ∀ d ∈ docs, ((List.range (c.chunkText d.text.toList).length).map (chunkId d.id)).Nodup :=
    fun d _ => List.nodup_range.map fun i j hij => (chunkId_injective hij).2
  exact (and_iff_right hown).trans
    ⟨fun h => h.imp fun {d e} => (hdisjoint d e).mp, fun h => h.imp fun {d e} => (hdisjoint d e).mpr⟩

theorem nodup_chunkIds (h : (docs.map (·.id)).Nodup) : (c.chunkIds docs).Nodup :=
  nodup_chunkIds_iff.mpr ((List.pairwise_map.mp h).imp fun hne _ _ => hne)

theorem mem_chunkIds {x : String} (h : x ∈ c.chunkIds docs) : ∃ d ∈ docs, ∃ i, x = chunkId d.id i := by
  obtain ⟨d, hd, h⟩ := List.mem_flatMap.mp h
  obtain ⟨i, _, rfl⟩ := List.mem_map.mp h
  exact ⟨d, hd, i, rfl⟩

theorem nodesOfAll_ne_nil (h : ∃ d ∈ docs, Text.Inked d.text.toList) : c.nodesOfAll docs ≠ [] := by
  obtain ⟨d, hd, hink⟩ := h
  intro hnil
  have hnone := List.flatMap_eq_nil_iff.mp hnil d hd
  rw [nodesOf, List.map_eq_nil_iff, List.zipIdx_eq_nil_iff] at hnone
  exact chunkText_ne_nil hink hnone

end Chunker
end CorpusIndex
