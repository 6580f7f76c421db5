import CorpusIndex.Corpus.Engine
import CorpusIndex.Proofs.Action
import CorpusIndex.Proofs.VectorMap
import CorpusIndex.VectorStore

/-!
# A vector map and the engine that holds the same vectors

An in-process map keeps its embeddings itself, and an engine bound to it keeps them again. `Mirrored`
relates the two: the same ids and embeddings in the same order, listed under the documents that the
engine's entries name. An entry written to both keeps the relation (`Mirrored.put`), and so does a
document deleted from both (`Mirrored.delete`).
-/
namespace CorpusIndex.VectorMap

variable {docOf : String → Option String} {metaOf : String → Metadata} {m m' : VectorMap}
  {s s' : VectorStore} {n : Node} {nodes : List Node} {entries : List VectorEntry} {doc v : String}
  {vs : List String}

/-- The node comes with the document and the metadata that belong to its id. -/
def Described (docOf : String → Option String) (metaOf : String → Metadata) (n : Node) : Prop :=
  n.document = docOf n.id ∧ n.metadata = metaOf n.id

/-- The in-process map `m` and the store `s` hold the same vectors. -/
structure Mirrored (docOf : String → Option String) (metaOf : String → Metadata) (m : VectorMap)
    (s : VectorStore) : Prop where
  inProcess : m.backend.inProcess = true
  embeddings : m.embeddings = s.entries.map fun e => (e.id, e.embedding)
  nodes_iff : ∀ v id, m.nodes.get? v = some id ↔ id = v ∧ v ∈ s.entries.map (·.id)
  lists_iff : ∀ doc v, m.Lists doc v ↔ v ∈ s.entries.map (·.id) ∧ docOf v = some doc
  described : ∀ e ∈ s.entries, e.document = docOf e.id ∧ e.metadata = metaOf e.id

/-! ### One entry -/

theorem map_putEntry (e : VectorEntry) (es : List VectorEntry) :
    (VectorStore.putEntry e es).map (fun e => (e.id, e.embedding)) =
      putEmbedding e.id e.embedding (es.map fun e => (e.id, e.embedding)) := by
  induction es with
  | nil => rfl
  | cons d es ih =>
      simp only [VectorStore.putEntry, putEmbedding, List.map_cons]
      split
      · rfl
      · rw [List.map_cons, ih]

theorem mem_ids_putEntry {e : VectorEntry} {es : List VectorEntry} :
    v ∈ (VectorStore.putEntry e es).map (·.id) ↔ v = e.id ∨ v ∈ es.map (·.id) := by
  induction es with
  | nil => simp [VectorStore.putEntry]
  | cons d es ih =>
      rw [VectorStore.putEntry]
      split
      next heq => simp [heq]
      next =>
        rw [List.map_cons, List.mem_cons, ih, List.map_cons, List.mem_cons]
        tauto

theorem mem_putEntry {e d : VectorEntry} {es : List VectorEntry} (h : d ∈ VectorStore.putEntry e es) :
    d = e ∨ d ∈ es := by
  induction es with
  | nil => exact .inl (List.mem_singleton.mp h)
  | cons c es ih =>
      rw [VectorStore.putEntry] at h
      split at h
      next => exact (List.mem_cons.mp h).imp_right fun h => List.mem_cons_of_mem _ h
      next =>
        rcases List.mem_cons.mp h with rfl | h
        · exact .inr List.mem_cons_self
        · exact (ih h).imp_right fun h => List.mem_cons_of_mem _ h

namespace Mirrored

theorem empty (id : String) (summary : Option String) (dimension : Nat) :
    Mirrored docOf metaOf { id, summary } ⟨dimension, []⟩ := by
  refine ⟨rfl, rfl, fun v id => ?_, fun doc v => ?_, by simp⟩
  · simp
  · simp [Lists, SortedMap.getD_eq]

/-- A node that enters the map enters the store in the same place. -/
theorem put (h : Mirrored docOf metaOf m s) (hn : Described docOf metaOf n) (x : Embedding)
    (hadd : m.add n none = .ok (m', v)) : Mirrored docOf metaOf (m'.embed v x)
      { s with entries := VectorStore.putEntry ⟨v, x, n.document, n.metadata⟩ s.entries } := by
  obtain ⟨rfl, hemb, hcases⟩ := add_eq_ok hadd
  refine ⟨?_, ?_, fun w id => ?_, fun doc w => ?_, fun e he => ?_⟩
  · rw [← h.inProcess, ← backend_add hadd]
    rfl
  · rw [map_putEntry, ← h.embeddings, ← hemb]
    rfl
  · change m'.nodes.get? w = some id ↔ _
    rw [mem_ids_putEntry]
    rcases hcases with ⟨hv, rfl⟩ | ⟨hv, hnodes, _⟩
    · have hin := ((h.nodes_iff _ _).mp hv).2
      rw [h.nodes_iff]
      refine and_congr_right fun _ => (or_iff_right_of_imp ?_).symm
      rintro rfl
      exact hin
    · rw [hnodes, SortedMap.get?_insert_eq_some, h.nodes_iff]
      simp only [Option.getD_none] at hv ⊢
      constructor
      · rintro (⟨rfl, rfl⟩ | ⟨_, rfl, hw⟩)
        · exact ⟨rfl, .inl rfl⟩
        · exact ⟨rfl, .inr hw⟩
      · rintro ⟨rfl, hw⟩
        by_cases hid : id = n.id
        · exact .inl ⟨hid, hid⟩
        · exact .inr ⟨hid, rfl, hw.resolve_left hid⟩
  · change m'.Lists doc w ↔ _
    rw [mem_ids_putEntry]
    rcases hcases with ⟨hv, rfl⟩ | ⟨_, _, hlists⟩
    · have hin := ((h.nodes_iff _ _).mp hv).2
      rw [h.lists_iff]
      refine and_congr_left fun _ => (or_iff_right_of_imp ?_).symm
      rintro rfl
      exact hin
    · rw [hlists, h.lists_iff, hn.1]
      simp only [Option.getD_none]
      constructor
      · rintro (⟨hw, hdoc⟩ | ⟨hdoc, rfl⟩)
        · exact ⟨.inr hw, hdoc⟩
        · exact ⟨.inl rfl, hdoc⟩
      · rintro ⟨rfl | hw, hdoc⟩
        · exact .inr ⟨hdoc, rfl⟩
        · exact .inl ⟨hw, hdoc⟩
  · rcases mem_putEntry he with rfl | he
    · exact hn
    · exact h.described e he

/-! ### One document -/

/-- A document whose vectors leave the map leaves the store with the same entries. -/
theorem delete (h : Mirrored docOf metaOf m s) (hdel : m.deleteDocument doc = .ok (m', vs)) :
    Mirrored docOf metaOf m' (s.delete doc) := by
  obtain ⟨hvs, hnodes, hlists, hemb⟩ := deleteDocument_eq_ok hdel
  have hids (v : String) : v ∈ (s.delete doc).entries.map (·.id) ↔
      v ∈ s.entries.map (·.id) ∧ docOf v ≠ some doc := by
    simp only [VectorStore.delete, List.mem_map, List.mem_filter, bne_iff_ne]
    constructor
    · rintro ⟨e, ⟨he, hdoc⟩, rfl⟩
      exact ⟨⟨e, he, rfl⟩, by rwa [← (h.described e he).1]⟩
    · rintro ⟨⟨e, he, rfl⟩, hdoc⟩
      exact ⟨e, ⟨he, by rwa [(h.described e he).1]⟩, rfl⟩
  refine ⟨backend_deleteDocument hdel ▸ h.inProcess, ?_, fun v id => ?_, fun d v => ?_, fun e he => ?_⟩
  · rw [hemb, h.embeddings, List.filter_map, VectorStore.delete]
    refine congrArg _ (List.filter_congr fun e he => ?_)
    have hin : e.id ∈ s.entries.map (·.id) := List.mem_map_of_mem he
    have hsame : vs.contains e.id = true ↔ e.document = some doc := by
      rw [List.contains_iff_mem, hvs, h.lists_iff, (h.described e he).1]
      exact and_iff_right hin
    simp only [Function.comp_apply, bne, Bool.not_eq_eq_eq_not, Bool.not_not]
    rw [Bool.eq_iff_iff, hsame, beq_iff_eq]
  · rw [hnodes, h.nodes_iff, h.lists_iff, hids]
    tauto
  · rw [hlists, h.lists_iff, hids]
    constructor
    · rintro ⟨hne, hv, hdoc⟩
      exact ⟨⟨hv, fun heq => hne (Option.some.inj (hdoc.symm.trans heq))⟩, hdoc⟩
    · rintro ⟨⟨hv, hother⟩, hdoc⟩
      exact ⟨fun heq => hother (heq ▸ hdoc), hv, hdoc⟩
  · exact h.described e (List.mem_filter.mp he).1

/-- Of a document that the map does not list the store has nothing to delete. -/
theorem delete_unlisted (h : Mirrored docOf metaOf m s) (hnone : ∀ v, ¬ m.Lists doc v) :
    s.delete doc = s := by
  have hall : s.entries.filter (fun e => e.document != some doc) = s.entries := by
    refine List.filter_eq_self.mpr fun e he => bne_iff_ne.mpr fun hdoc => hnone e.id ?_
    exact (h.lists_iff doc e.id).mpr ⟨List.mem_map_of_mem he, (h.described e he).1 ▸ hdoc⟩
  rw [VectorStore.delete, hall]

end Mirrored
end CorpusIndex.VectorMap
