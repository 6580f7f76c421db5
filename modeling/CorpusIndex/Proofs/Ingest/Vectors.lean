import CorpusIndex.CommandLine.Run
import CorpusIndex.Proofs.Embedding.Cache
import CorpusIndex.Proofs.Indexing.Vectors

/-!
# Vectors of new chunks

Behind its cache the usual embedder answers every call as long as the cache holds vectors of the right
dimension only, and it enters no others. A store of vectors that is empty keeps the entries of new nodes in
their order. So chunks are inserted into an empty map and an empty store together.
-/
namespace CorpusIndex

variable {σ : Type} {dim : Nat}

/-! ### Hashed embeddings -/

namespace Hashed

theorem length_embed (dim : Nat) (text : String) : (embed dim text).length = dim := by
  have hfold (words : List (List Char × Nat)) (v : Embedding) (hv : v.length = dim) :
      (words.foldl (fun v w =>
        let hash := wordHash w.1
        v.modify (hash % dim) (· + weight hash w.2)) v).length = dim := by
    induction words generalizing v with
    | nil => exact hv
    | cons w words ih => exact ih _ (by simpa using hv)
  have hsum : (accumulate dim text).length = dim := hfold _ _ (by simp)
  unfold embed
  dsimp only
  split
  · simpa using hsum
  · exact hsum

/-- Vectors that can be made at all are made, and no state changes. -/
theorem answers (h : dim ≤ mostEntries) (I : σ → Prop) :
    (⟨dim, embedBatch dim⟩ : Embedder σ).Answers I (ofDimension dim) where
  embeds texts s hs := by
    refine ⟨texts.map (embed dim), s, ?_, hs, ?_⟩
    · simp only [embedBatch, Nat.not_lt.mpr h, false_and, if_false]
      rfl
    · exact List.forall₂_map_right_iff.mpr (List.forall₂_same.mpr fun text _ => length_embed dim text)
  dimension _ _ hv := hv

end Hashed

/-! ### Behind a cache -/

namespace CachedEmbedder
variable {e : CachedEmbedder σ}

/-- An embedder that answers goes on answering behind a cache. -/
theorem answers {I : σ → Prop} (hinner : e.inner.Answers I (ofDimension dim))
    (hget : ∀ s, I s → (e.slot.get s).Sized dim)
    (hset : ∀ s c, I s → c.Sized dim → I (e.slot.set c s)) : e.embedder.Answers I (ofDimension dim) where
  embeds texts s hs := by
    have hknown : ∀ text ∈ texts, ∀ v, (e.slot.get s).find? text = some v → ofDimension dim text v :=
      fun text _ v hv => hget s hs _ v hv
    by_cases hnone : e.missing s texts = []
    · refine ⟨_, s, embedBatch_run_of_known hnone, hs, EmbeddingCache.fill_answers hknown ?_⟩
      rw [show texts.filter _ = [] from hnone]
      exact .nil
    · obtain ⟨fresh, s', hrun, hs', hfresh⟩ := hinner.embeds (e.missing s texts) s hs
      refine ⟨_, _, embedBatch_run_of_missing hnone hrun hfresh.length_eq.symm, ?_,
        EmbeddingCache.fill_answers hknown hfresh⟩
      exact hset s' _ hs' ((hget s' hs').putAll hfresh)
  dimension := hinner.dimension

end CachedEmbedder

/-! ### An empty store of vectors -/

namespace VectorStore
variable {s : VectorStore} {entries es : List VectorEntry} {e : VectorEntry}

theorem putEntry_of_not_mem (h : e.id ∉ es.map (·.id)) : putEntry e es = es ++ [e] := by
  induction es with
  | nil => rfl
  | cons d es ih =>
      obtain ⟨hne, hrest⟩ := not_or.mp (List.mem_cons.not.mp h)
      rw [putEntry, if_neg (Ne.symm hne), ih hrest]
      rfl

theorem foldl_putEntry_of_nodup (h : ((es ++ entries).map (·.id)).Nodup) :
    entries.foldl (fun es e => putEntry e es) es = es ++ entries := by
  induction entries generalizing es with
  | nil => simp
  | cons e entries ih =>
      have hsplit : es ++ e :: entries = (es ++ [e]) ++ entries := by simp
      have hnew : e.id ∉ es.map (·.id) := by
        rw [List.map_append, List.nodup_append] at h
        intro hin
        exact h.2.2 _ hin _ (by simp) rfl
      rw [hsplit] at h ⊢
      rw [List.foldl_cons, putEntry_of_not_mem hnew, ih h]

/-- New entries of the right dimension are kept in their order. -/
theorem add_of_new (hnd : (entries.map (·.id)).Nodup) (hsize : ∀ e ∈ entries, e.embedding.length = dim) :
    ({ dimension := dim } : VectorStore).add entries =
      .ok ({ dimension := dim, entries }, entries.map (·.id)) := by
  have hfit : misfit? dim entries = none := by
    rw [misfit?, Option.map_eq_none_iff, List.find?_eq_none]
    intro e he
    simp [hsize e he]
  have hput : entries.foldl (fun es e => putEntry e es) [] = [] ++ entries :=
    foldl_putEntry_of_nodup (by simpa using hnd)
  simp only [add, hfit, hput, List.nil_append]

end VectorStore

/-! ### Both together -/

namespace VectorMap
variable {e : Embedder σ} {I : σ → Prop} {batch nodes : List Node}

/-- Nodes that were embedded as they came are the same nodes, each with a vector of the dimension. -/
theorem completed_unembedded (h : List.Forall₂ (Completed (ofDimension dim)) batch nodes)
    (hnone : ∀ n ∈ batch, n.embedding = none) :
    nodes.map (·.id) = batch.map (·.id) ∧ ∀ n ∈ nodes, (n.embedding.getD []).length = dim := by
  induction h with
  | nil => exact ⟨rfl, by simp⟩
  | @cons n n' batch nodes hn _ ih =>
      obtain ⟨hids, hall⟩ := ih fun k hk => hnone k (by simp [hk])
      obtain ⟨_, v, hv, rfl⟩ := hn.resolve_right fun hsome => hsome.1 (hnone n (by simp))
      exact ⟨by simp [hids], List.forall_mem_cons.mpr ⟨hv, hall⟩⟩

/-- New nodes enter an empty map, and an empty store beside it takes their vectors. -/
theorem insert_new (slot : Slot σ VectorStore) (h : e.Answers I (ofDimension dim))
    (hslot : ∀ s, I s → slot.get s = { dimension := dim }) (hnd : (batch.map (·.id)).Nodup)
    (hnone : ∀ n ∈ batch, n.embedding = none) (batchSize : Nat) (id : String) {s : σ} (hs : I s) :
    ∃ m nodes s',
      (insert e (some (VectorStore.engine slot)) batchSize { id } batch).run s =
        (⟨m, nodes, .ok (batch.map (·.id))⟩,
          slot.set { dimension := dim, entries := nodes.map entryOf } s') ∧
      I s' ∧ nodes.map (·.id) = batch.map (·.id) ∧ m.Maps id nodes := by
  obtain ⟨nodes, s', hembed, hs', hnodes⟩ := embedMissing_answers h batchSize batch hs
  obtain ⟨hids, hsize⟩ := completed_unembedded hnodes hnone
  obtain ⟨m, henter, hm⟩ := (Maps.empty id).enter nodes (by simpa [hids] using hnd)
  have hadd : ({ dimension := dim } : VectorStore).add (nodes.map entryOf) =
      .ok ({ dimension := dim, entries := nodes.map entryOf }, (nodes.map entryOf).map (·.id)) :=
    VectorStore.add_of_new (by rw [map_id_entryOf, hids]; exact hnd) (by simpa [entryOf] using hsize)
  have hengine : ((VectorStore.engine slot).add (nodes.map entryOf)).run s' =
      (.ok ((nodes.map entryOf).map (·.id)),
        slot.set { dimension := dim, entries := nodes.map entryOf } s') := by
    rw [engine_add_run, hslot s' hs', hadd]
  have hrun := insert_of_steps rfl hembed (register_some_run henter hengine)
  rw [map_id_entryOf, hids] at hrun
  exact ⟨m, nodes, s', hrun, hs', hids, hm⟩

end VectorMap

end CorpusIndex
