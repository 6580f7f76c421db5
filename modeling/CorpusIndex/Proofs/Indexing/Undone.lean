import CorpusIndex.Proofs.Indexing.Vectors

/-!
# Deletion undoes indexing

A list, a keyword table and a vector map that were built over a batch of stored nodes are, after a document
is deleted from them, what building over the rest of the batch gives: in the same order, with the same
postings and no empty ones left behind.
-/
namespace CorpusIndex

variable {σ : Type} {store : NodeStore} {batch : List Node} {doc id : String} {i j : Index}

/-- Deleting the document from `i` leaves `j`: it succeeds, or finds nothing to delete. -/
def Index.DropsTo (store : NodeStore) (doc : String) (i j : Index) : Prop :=
  (i.deleteDocument doc store).1 = j ∧
    ((∃ ids, (i.deleteDocument doc store).2 = .ok ids) ∨
      ∃ a, (i.deleteDocument doc store).2 = .error (.absent a))

namespace NodeList

/-- The nodes of a batch added one after another. -/
def ofBatch (id : String) (batch : List Node) : NodeList :=
  batch.foldl (fun l n => l.add n.id) { id }

theorem ofBatch_eq (id : String) (hnd : (batch.map (·.id)).Nodup) :
    ofBatch id batch = { id, nodes := batch.map (·.id) } := by
  induction batch using List.reverseRecOn with
  | nil => rfl
  | append_singleton batch n ih =>
      rw [List.map_append, List.nodup_append] at hnd
      have hnew : ¬ (batch.map (·.id)).contains n.id = true := by
        rw [List.contains_iff_mem]
        intro hin
        exact hnd.2.2 _ hin _ (by simp) rfl
      have hlast : ofBatch id (batch ++ [n]) = (ofBatch id batch).add n.id := by simp [ofBatch]
      rw [hlast, ih hnd.1, add, contains, if_neg hnew, List.map_append]
      rfl

theorem ofBatch_dropsTo (hnd : (batch.map (·.id)).Nodup) (held : store.Holds batch) (doc id : String) :
    Index.DropsTo store doc (.list (ofBatch id batch)) (.list (ofBatch id (withoutDocument doc batch))) := by
  have hrest : ((withoutDocument doc batch).map (·.id)).Nodup :=
    hnd.sublist (List.filter_sublist.map _)
  have hstored : (Index.list (ofBatch id batch)).Resolves store := by
    intro i hi
    rw [ofBatch_eq id hnd] at hi
    obtain ⟨n, hn, rfl⟩ := List.mem_map.mp hi
    exact held.contains hn
  refine ⟨?_, Index.Deletable.outcome ⟨fun f hf => (by cases hf), hstored⟩⟩
  have hkept : (batch.map (·.id)).filter (fun id => !store.owns doc id) =
      (withoutDocument doc batch).map (·.id) := by
    rw [List.filter_map, withoutDocument]
    refine congrArg _ (List.filter_congr fun n hn => ?_)
    rw [Function.comp_apply, held.owns hn]
  rw [deleteDocument_leaves hstored, ofBatch_eq id hnd, ofBatch_eq id hrest, hkept]

end NodeList

theorem KeywordTable.ofBatch_dropsTo (held : store.Holds batch) (doc id : String)
    (keywords : String → List String) : Index.DropsTo store doc (.keywordTable (ofBatch keywords id batch))
      (.keywordTable (ofBatch keywords id (withoutDocument doc batch))) := by
  obtain ⟨hstored, hdel⟩ := deleteDocument_ofBatch held doc keywords id
  exact ⟨hdel, Index.Deletable.outcome ⟨fun f hf => (by cases hf), hstored⟩⟩

/-- Two maps, of a batch and of the rest of it. -/
theorem VectorMap.Maps.dropsTo {m m' : VectorMap} {nodes : List Node} (h : m.Maps id nodes)
    (hnd : (nodes.map (·.id)).Nodup) (h' : m'.Maps id (withoutDocument doc nodes)) :
    Index.DropsTo store doc (.vectors m) (.vectors m') := by
  obtain ⟨m₁, hdel, h₁⟩ := h.deleteDocument hnd doc
  refine ⟨?_, Index.Deletable.outcome ⟨fun f hf => (by cases hf), by simp [Index.lookedUp]⟩⟩
  rw [hdel, h₁.unique h']

/-- What is built over a batch of stored nodes loses a document to what is built without its nodes: the
list, the keyword table of an extractor that answers by the text, and the in-process vector map of an
embedder that works text by text. -/
theorem deletion_undoes_indexing (distinct : (batch.map (·.id)).Nodup) (held : store.Holds batch)
    (doc id : String) {x : KeywordExtractor σ} {most : Nat} {keywords : String → List String}
    (extracts : ∀ n ∈ batch, ∀ s, ((x.keywords n.text most).run s).1 = .ok (keywords n.text))
    {e : Embedder σ} {f : String → Embedding} (textwise : e.Textwise f) (batchSize : Nat) :
    Index.DropsTo store doc (.list (.ofBatch id batch)) (.list (.ofBatch id (withoutDocument doc batch))) ∧
      (∀ s s', ∃ t t', ((KeywordTable.build x most id batch).run s).1 = .ok t ∧
        ((KeywordTable.build x most id (withoutDocument doc batch)).run s').1 = .ok t' ∧
          Index.DropsTo store doc (.keywordTable t) (.keywordTable t')) ∧
      ∀ s s', ∃ m m' nodes nodes' ids ids',
        ((VectorMap.insert e none batchSize { id } batch).run s).1 = ⟨m, nodes, .ok ids⟩ ∧
          ((VectorMap.insert e none batchSize { id } (withoutDocument doc batch)).run s').1 =
            ⟨m', nodes', .ok ids'⟩ ∧ Index.DropsTo store doc (.vectors m) (.vectors m') := by
  have hrest : ((withoutDocument doc batch).map (·.id)).Nodup :=
    distinct.sublist (List.filter_sublist.map _)
  refine ⟨NodeList.ofBatch_dropsTo distinct held doc id, fun s s' => ?_, fun s s' => ?_⟩
  · refine ⟨_, _, KeywordTable.build_run extracts s, KeywordTable.build_run (fun n hn => ?_) s',
      KeywordTable.ofBatch_dropsTo held doc id keywords⟩
    exact extracts n (mem_withoutDocument.mp hn).1
  · obtain ⟨m, hrun, hm⟩ := VectorMap.insert_run textwise distinct batchSize id s
    obtain ⟨m', hrun', hm'⟩ := VectorMap.insert_run textwise hrest batchSize id s'
    have hfilled : (withoutDocument doc batch).map (VectorMap.filled f) =
        withoutDocument doc (batch.map (VectorMap.filled f)) := by
      rw [withoutDocument, withoutDocument, List.filter_map]
      rfl
    have hids : ((batch.map (VectorMap.filled f)).map (·.id)).Nodup := by
      rw [List.map_map]
      exact distinct
    exact ⟨m, m', _, _, _, _, hrun, hrun', hm.dropsTo hids (hfilled ▸ hm')⟩

/-! ### Two documents, one in the middle of the other -/

/-- Two nodes of `A`, the second with an embedding of its own, around one of `B`. -/
def interleaved : List Node :=
  [{ id := "a0", text := "red sea", document := some "A" },
    { id := "b0", text := "red", document := some "B" },
    { id := "a1", text := "sea", document := some "A", embedding := some [] }]

def interleavedStore : NodeStore := interleaved.foldl NodeStore.put {}

/-- The text itself, and a word all texts share. -/
def textAndAll (text : String) : List String := [text, "all"]

/-- Extracts these, and counts its calls. -/
def countingExtractor : KeywordExtractor Nat where
  keywords text _ := do
    modify (· + 1)
    return textAndAll text

/-- Embeds every text at the origin, and counts its calls. -/
def countingEmbedder : Embedder Nat where
  dim := 1
  embedBatch texts := do
    modify (· + 1)
    return texts.map fun _ => [0]

theorem holds_interleaved : interleavedStore.Holds interleaved := by
  intro n hn
  simp only [interleaved, List.mem_cons, List.not_mem_nil, or_false] at hn
  rcases hn with rfl | rfl | rfl <;> exact ⟨_, rfl, rfl⟩

theorem textwise_countingEmbedder : countingEmbedder.Textwise fun _ => [0] :=
  ⟨fun _ _ => rfl, fun _ => rfl⟩

/-- Taking `A` out leaves what the node of `B` alone gives, whatever the collaborators have counted. -/
theorem deletion_undoes_indexing_interleaved :
    Index.DropsTo interleavedStore "A" (.list (.ofBatch "i" interleaved))
        (.list (.ofBatch "i" (withoutDocument "A" interleaved))) ∧
      (∃ t t', ((KeywordTable.build countingExtractor 5 "i" interleaved).run 0).1 = .ok t ∧
        ((KeywordTable.build countingExtractor 5 "i" (withoutDocument "A" interleaved)).run 7).1 = .ok t' ∧
          Index.DropsTo interleavedStore "A" (.keywordTable t) (.keywordTable t')) ∧
      ∃ m m' nodes nodes' ids ids',
        ((VectorMap.insert countingEmbedder none 2 { id := "i" } interleaved).run 0).1 =
            ⟨m, nodes, .ok ids⟩ ∧
          ((VectorMap.insert countingEmbedder none 2 { id := "i" }
            (withoutDocument "A" interleaved)).run 7).1 = ⟨m', nodes', .ok ids'⟩ ∧
          Index.DropsTo interleavedStore "A" (.vectors m) (.vectors m') := by
  have hextracts : ∀ n ∈ interleaved, ∀ s,
      ((countingExtractor.keywords n.text 5).run s).1 = .ok (textAndAll n.text) := fun _ _ _ => rfl
  have h := deletion_undoes_indexing (by decide) holds_interleaved "A" "i" hextracts
    textwise_countingEmbedder 2
  exact ⟨h.1, h.2.1 0 7, h.2.2 0 7⟩

end CorpusIndex
