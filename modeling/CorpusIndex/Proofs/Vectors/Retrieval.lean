import CorpusIndex.Proofs.Vectors.Calls
import CorpusIndex.Retrieve.Vectors

/-!
# Answers with and without the engine

A query on its own path reads the map's embeddings and the metadata of stored nodes; through the engine
it reads the engine's entries and their metadata. Over a mirrored map and a store that holds its nodes
both rank the same candidates, and both answers can be put together.
-/
namespace CorpusIndex

/-- What is near was a candidate. -/
theorem mem_nearest {α : Type} {query : Embedding} {candidates : List (α × Embedding)} {most : Nat}
    {cutoff : Option Float32} {x : α × Float32} (h : x ∈ nearest query candidates most cutoff) :
    x.1 ∈ candidates.map (·.1) := by
  have hkept := List.mem_mergeSort.mp (List.mem_of_mem_take h)
  obtain ⟨c, hc, rfl⟩ := List.mem_map.mp (List.mem_of_mem_filter hkept)
  exact List.mem_map_of_mem hc

namespace VectorMap

variable {τ : Type} {docOf : String → Option String} {metaOf : String → Metadata} {m : VectorMap}
  {s : VectorStore} {store : NodeStore} {filter : Option MetadataFilter} {v : Embedding}

/-- The nodes of these ids are stored with the metadata that belong to them. -/
def Stocked (store : NodeStore) (metaOf : String → Metadata) (ids : List String) : Prop :=
  ∀ id ∈ ids, ∃ n, store.nodes.get? id = some n ∧ n.metadata = metaOf id

/-! ### Candidates -/

theorem Mirrored.nodeOf (h : Mirrored docOf metaOf m s) {id : String}
    (hid : id ∈ s.entries.map (·.id)) : m.nodeOf id = .ok id := by
  have hget : m.nodes.get? id = some id := (h.nodes_iff id id).mpr ⟨rfl, hid⟩
  simp only [VectorMap.nodeOf, hget]

/-- The filter lets the same vectors through on stored nodes and on the engine's entries. -/
theorem Mirrored.passing (h : Mirrored docOf metaOf m s)
    (hstore : Stocked store metaOf (s.entries.map (·.id))) (filter : Option MetadataFilter) :
    m.passing store filter = .ok ((s.entries.filter fun e => filter.all (·.accepts e.metadata)).map
      fun e => (e.id, e.embedding)) := by
  cases filter with
  | none => simp [VectorMap.passing, h.embeddings]
  | some f =>
      have hread : ∀ x ∈ m.embeddings, (do
          let n ← store.resolve (← m.nodeOf x.1)
          return f.accepts n.metadata) = Except.ok (f.accepts (metaOf x.1)) := by
        intro x hx
        rw [h.embeddings] at hx
        obtain ⟨e, he, rfl⟩ := List.mem_map.mp hx
        have hid : e.id ∈ s.entries.map (·.id) := List.mem_map_of_mem he
        obtain ⟨n, hn, hmeta⟩ := hstore e.id hid
        rw [h.nodeOf hid, ok_bind, NodeStore.resolve_eq_ok.mpr hn, ok_bind, hmeta]
        rfl
      have hsame : (s.entries.filter fun e => f.accepts (metaOf e.id)) =
          s.entries.filter fun e => f.accepts e.metadata :=
        List.filter_congr fun e he => by rw [(h.described e he).2]
      rw [VectorMap.passing, filterM_eq_ok hread, h.embeddings, List.filter_map]
      exact congrArg (fun l => Except.ok (l.map fun e : VectorEntry => (e.id, e.embedding))) hsame

theorem query_run (v : Embedding) (most : Nat) (filter : Option MetadataFilter) (t : τ)
    (s : VectorStore) : ((VectorStore.engine VectorStore.slot).query v most filter).external.run (t, s) =
      match s.query v most filter with
      | .error f => (.error (.external (.fault f)), (t, s))
      | .ok found => (.ok found, (t, s)) := by
  have hstep (x : Except Fault (List (String × Float32))) :
      Call.external (liftM x : Call (τ × VectorStore) (List (String × Float32))) (t, s) = match x with
        | .error f => (.error (.external (.fault f)), (t, s))
        | .ok found => (.ok found, (t, s)) := by
    cases x <;> rfl
  exact hstep (s.query v most filter)

/-- A query of the engine's dimension finds the same on both ways, and only vectors that are mapped. -/
theorem Mirrored.search (h : Mirrored docOf metaOf m s)
    (hstore : Stocked store metaOf (s.entries.map (·.id))) (hv : v.length = s.dimension) (most : Nat)
    (filter : Option MetadataFilter) (t : τ) : ∃ found, (∀ x ∈ found, x.1 ∈ s.entries.map (·.id)) ∧
      (m.search store (some (VectorStore.engine VectorStore.slot)) most filter v).run (t, s) =
        (.ok found, (t, s)) ∧
      (m.search store none most filter v : Action (τ × VectorStore) _).run (t, s) =
        (.ok found, (t, s)) := by
  refine ⟨nearest v ((s.entries.filter fun e => filter.all (·.accepts e.metadata)).map
    fun e => (e.id, e.embedding)) most none, fun x hx => ?_, ?_, ?_⟩
  · obtain ⟨c, hc, hid⟩ := List.mem_map.mp (mem_nearest hx)
    obtain ⟨e, he, rfl⟩ := List.mem_map.mp hc
    rw [← hid]
    exact List.mem_map_of_mem (List.mem_of_mem_filter he)
  · have hquery : s.query v most filter = .ok (nearest v
        ((s.entries.filter fun e => filter.all (·.accepts e.metadata)).map
          fun e => (e.id, e.embedding)) most none) := by
      rw [VectorStore.query, if_neg (not_not.mpr hv)]
    change ((VectorStore.engine VectorStore.slot).query v most filter).external.run (t, s) = _
    rw [query_run, hquery]
  · simp only [VectorMap.search, h.inProcess, if_true, h.passing hstore]
    rfl

/-! ### Answers -/

/-- The embedding of a query does not touch the engine. -/
theorem embed_beside (e : Embedder τ) (q : Query) (t : τ) (s : VectorStore) :
    (q.embed e.beside).run (t, s) = (((q.embed e).run t).1, (((q.embed e).run t).2, s)) := by
  unfold Query.embed
  split
  · rfl
  · have hquery : (e.beside.embedQuery q.text).run (t, s) =
        (((e.embedQuery q.text).run t).1, (((e.embedQuery q.text).run t).2, s)) := by
      unfold Embedder.embedQuery
      have hbatch : (e.beside.embedBatch [q.text]).run (t, s) =
        (((e.embedBatch [q.text]).run t).1, (((e.embedBatch [q.text]).run t).2, s)) := rfl
      rw [run_bind, run_bind, hbatch]
      rcases (e.embedBatch [q.text]).run t with ⟨r, t'⟩
      cases r with
      | error f => rfl
      | ok vs =>
          dsimp only
          split <;> rfl
    rw [external_run, external_run, hquery]
    rcases (e.embedQuery q.text).run t with ⟨r, t'⟩
    cases r <;> rfl

/-- Hits on mapped vectors of stored nodes all enter the answer. -/
theorem collect_run (h : Mirrored docOf metaOf m s)
    (hstore : Stocked store metaOf (s.entries.map (·.id)))
    {found : List (String × Float32)} (hfound : ∀ x ∈ found, x.1 ∈ s.entries.map (·.id))
    (out : Retrieval) (st : τ × VectorStore) : ∃ r, (found.foldlM (fun out found => do
      let id ← m.nodeOf found.1
      return out.addScored id (← store.resolve id) found.2) out :
        Action (τ × VectorStore) Retrieval).run st = (.ok r, st) := by
  induction found generalizing out with
  | nil => exact ⟨out, rfl⟩
  | cons x found ih =>
      have hid : x.1 ∈ s.entries.map (·.id) := hfound x (by simp)
      obtain ⟨n, hn, _⟩ := hstore x.1 hid
      rw [List.foldlM_cons, h.nodeOf hid, liftM_ok_bind, NodeStore.resolve_eq_ok.mpr hn, liftM_ok_bind]
      exact ih (fun y hy => hfound y (by simp [hy])) (out.addScored x.1 n x.2)

/-- With a query of the engine's dimension the answer is the same with the engine and without. -/
theorem Mirrored.retrieve (h : Mirrored docOf metaOf m s)
    (hstore : Stocked store metaOf (s.entries.map (·.id))) (e : Embedder τ) (q : Query) (most : Nat)
    (filter : Option MetadataFilter) {t t' : τ} (hq : (q.embed e).run t = (.ok v, t'))
    (hv : v.length = s.dimension) : ∃ r t'',
      (m.retrieve store e.beside (some (VectorStore.engine VectorStore.slot)) most filter q).run (t, s) =
        (.ok r, (t'', s)) ∧
      (m.retrieve store e.beside none most filter q).run (t, s) = (.ok r, (t'', s)) := by
  have hembed : (q.embed e.beside).run (t, s) = (.ok v, (t', s)) := by rw [embed_beside, hq]
  obtain ⟨found, hfound, hwith, hwithout⟩ := h.search hstore hv most filter t'
  obtain ⟨r, hr⟩ := collect_run h hstore hfound {} (t', s)
  unfold VectorMap.retrieve
  cases m.isEmpty with
  | true => exact ⟨{}, t, rfl, rfl⟩
  | false =>
      refine ⟨r, t', ?_, ?_⟩
      · simp only [Bool.false_eq_true, if_false]
        rw [run_bind, hembed]
        dsimp only
        rw [run_bind, hwith]
        exact hr
      · simp only [Bool.false_eq_true, if_false]
        rw [run_bind, hembed]
        dsimp only
        rw [run_bind, hwithout]
        exact hr

end VectorMap
end CorpusIndex
