import CorpusIndex.Proofs.Corpus.Deletion
import CorpusIndex.Proofs.Vectors.Mirror

/-!
# Insertions and deletions beside an engine

An insertion embeds nodes, enters them into the map and hands the same entries to the engine; if a step
fails, neither has changed. A deletion takes a document out of the corpus and then out of the engine.
Both keep the map and the engine mirrored, whether they succeed or not.
-/
namespace CorpusIndex

variable {τ α β : Type}

/-- The engine's part of a state beside the part of other collaborators. -/
def VectorStore.slot : Slot (τ × VectorStore) VectorStore := ⟨Prod.snd, fun s st => (st.1, s)⟩

/-- An embedder that works in the other part. -/
def Embedder.beside (e : Embedder τ) : Embedder (τ × VectorStore) where
  dim := e.dim
  embedBatch texts := (e.embedBatch texts).within ⟨Prod.fst, fun t st => (t, st.2)⟩

/-- Whatever the state, the engine's part stays as it is and the answer is in `Q`. -/
def Leaves (a : StateM (τ × VectorStore) α) (Q : α → Prop) : Prop :=
  ∀ st, (a.run st).2.2 = st.2 ∧ Q (a.run st).1

namespace Leaves
variable {P : α → Prop} {Q R : β → Prop}

theorem pure {x : β} (h : Q x) : Leaves (Pure.pure x : StateM (τ × VectorStore) β) Q :=
  fun _ => ⟨rfl, h⟩

theorem bind {a : StateM (τ × VectorStore) α} {f : α → StateM (τ × VectorStore) β}
    (ha : Leaves a P) (hf : ∀ x, P x → Leaves (f x) Q) : Leaves (a >>= f) Q := by
  intro st
  obtain ⟨hstate, hx⟩ := ha st
  obtain ⟨hstate', hy⟩ := hf _ hx (a.run st).2
  exact ⟨hstate'.trans hstate, hy⟩

theorem external (e : Embedder τ) (texts : List String) :
    Leaves ((e.beside.embedBatch texts).external).run fun _ => True := by
  refine bind (P := fun _ => True) (fun st => ⟨rfl, trivial⟩) fun r _ => ?_
  cases r <;> exact pure trivial

end Leaves

namespace VectorMap

variable {docOf : String → Option String} {metaOf : String → Metadata} {m m' : VectorMap}
  {s s' : VectorStore} {n : Node} {nodes batch done : List Node} {entries : List VectorEntry}

/-! ### Embedding -/

/-- The nodes of `done` are nodes of `nodes`, with or without a new embedding. -/
def Filled (nodes done : List Node) : Prop :=
  ∀ m ∈ done, ∃ n ∈ nodes, ∃ x, m = { n with embedding := x }

theorem Filled.refl (nodes : List Node) : Filled nodes nodes :=
  fun m hm => ⟨m, hm, m.embedding, rfl⟩

theorem Filled.append {more found : List Node} (h : Filled nodes done) (h' : Filled more found) :
    Filled (nodes ++ more) (done ++ found) := by
  intro m hm
  rcases List.mem_append.mp hm with hm | hm
  · obtain ⟨n, hn, hx⟩ := h m hm
    exact ⟨n, List.mem_append_left _ hn, hx⟩
  · obtain ⟨n, hn, hx⟩ := h' m hm
    exact ⟨n, List.mem_append_right _ hn, hx⟩

theorem takeVectors_filled (dim : Nat) (nodes : List Node) (vs : List Embedding) :
    Filled nodes (takeVectors dim nodes vs).1 := by
  induction nodes generalizing vs with
  | nil => cases vs <;> exact .refl []
  | cons n nodes ih =>
      cases vs with
      | nil => exact .refl _
      | cons v vs =>
          unfold takeVectors
          split
          · exact .refl _
          · have hone : Filled [n] [{ n with embedding := some v }] := by
              intro m hm
              exact ⟨n, List.mem_singleton_self n, some v, List.mem_singleton.mp hm⟩
            exact hone.append (ih vs)

theorem embedBatch_leaves (e : Embedder τ) (batch : List Node) :
    Leaves (embedBatch e.beside batch) fun r => Filled batch r.1 := by
  unfold embedBatch
  refine Leaves.bind (Leaves.external e _) fun r _ => ?_
  cases r with
  | error f => exact Leaves.pure (.refl batch)
  | ok vectors =>
      dsimp only
      split
      · exact Leaves.pure (.refl batch)
      · exact Leaves.pure (takeVectors_filled e.dim batch vectors)

theorem embedBatches_leaves (e : Embedder τ) (batches : List (List Node)) :
    Leaves (embedBatches e.beside batches) fun r => Filled batches.flatten r.1 := by
  induction batches with
  | nil => exact Leaves.pure (.refl [])
  | cons batch batches ih =>
      unfold embedBatches
      refine Leaves.bind (embedBatch_leaves e batch) fun r hr => ?_
      obtain ⟨found, r⟩ := r
      rw [List.flatten_cons]
      cases r with
      | error f => exact Leaves.pure (hr.append (.refl _))
      | ok _ => exact Leaves.bind ih fun r' hr' => Leaves.pure (hr.append hr')

theorem mem_putBack (h : n ∈ putBack nodes done) : n ∈ nodes ∨ n ∈ done := by
  induction nodes generalizing done with
  | nil => cases h
  | cons k nodes ih =>
      unfold putBack at h
      split at h
      next =>
        rcases List.mem_cons.mp h with rfl | h
        · exact .inr List.mem_cons_self
        · exact (ih h).imp (List.mem_cons_of_mem _) (List.mem_cons_of_mem _)
      next =>
        rcases List.mem_cons.mp h with rfl | h
        · exact .inl List.mem_cons_self
        · exact (ih h).imp_left (List.mem_cons_of_mem _)

theorem embedMissing_leaves (e : Embedder τ) (batchSize : Nat) (nodes : List Node) :
    Leaves (embedMissing e.beside batchSize nodes) fun r => Filled nodes r.1 := by
  unfold embedMissing
  refine Leaves.bind (embedBatches_leaves e _) fun r hr => Leaves.pure fun m hm => ?_
  rw [flatten_groups] at hr
  rcases mem_putBack hm with hm | hm
  · exact Filled.refl nodes m hm
  · obtain ⟨n, hn, hx⟩ := hr m hm
    exact ⟨n, List.mem_of_mem_filter hn, hx⟩

/-! ### Entering -/

theorem rebindAll_self (m : VectorMap) (ids : List String) : m.rebindAll (ids.zip ids) = .ok m := by
  induction ids with
  | nil => rfl
  | cons id ids ih =>
      have hsame : m.rebind id id = .ok m := if_pos rfl
      rw [List.zip_cons_cons, rebindAll, hsame]
      exact ih

/-- What a store kept in a part of the state answers and leaves. -/
theorem engine_add_run {σ : Type} (slot : Slot σ VectorStore) (entries : List VectorEntry) (s : σ) :
    ((VectorStore.engine slot).add entries).run s =
      match (slot.get s).add entries with
      | .error f => (.error f, s)
      | .ok (v, ids) => (.ok ids, slot.set v s) := by
  -- once the store is read, the answer depends on its own outcome only
  change ExceptT.run (do
    let r ← (slot.get s).add entries
    modify (slot.set r.1)
    return r.2 : Call σ (List String)) s = _
  cases (slot.get s).add entries <;> rfl

theorem add_run (entries : List VectorEntry) (t : τ) (s : VectorStore) :
    ((VectorStore.engine VectorStore.slot).add entries).external.run (t, s) =
      match s.add entries with
      | .error f => (.error (.external (.fault f)), (t, s))
      | .ok (s', ids) => (.ok ids, (t, s')) := by
  have hget : VectorStore.slot.get (t, s) = s := rfl
  rw [external_run, engine_add_run, hget]
  cases s.add entries <;> rfl

/-- The map changes with the engine or not at all. -/
theorem register_run (m : VectorMap) (nodes : List Node) (t : τ) (s : VectorStore) :
    (register (some (VectorStore.engine VectorStore.slot)) m nodes).run (t, s) =
      match m.enter nodes with
      | .error f => (.error f, (t, s))
      | .ok (m', entries) =>
        match s.add entries with
        | .error f => (.error (.external (.fault f)), (t, s))
        | .ok (s', ids) => (.ok (m', ids), (t, s')) := by
  unfold register
  cases henter : m.enter nodes with
  | error f => rfl
  | ok r =>
      obtain ⟨m', entries⟩ := r
      change (ExceptT.run (do
        let ids ← ((VectorStore.engine VectorStore.slot).add entries).external
        if ids.length ≠ (entries.map (·.id)).length then
          throw (.external (.idCount ids.length (entries.map (·.id)).length))
        return (← m'.rebindAll ((entries.map (·.id)).zip ids), ids))) (t, s) = _
      rw [run_bind, add_run]
      cases hadd : s.add entries with
      | error f => simp only [hadd]
      | ok r =>
          obtain ⟨s', ids⟩ := r
          have hids : ids = entries.map (·.id) := by
            unfold VectorStore.add at hadd
            split at hadd <;> cases hadd
            rfl
          subst hids
          simp only [ne_eq, not_true_eq_false, if_false, rebindAll_self, hadd]
          rfl

/-- Entered nodes enter the store one after another. -/
theorem Mirrored.enter (h : Mirrored docOf metaOf m s) (hn : ∀ n ∈ nodes, Described docOf metaOf n)
    (henter : m.enter nodes = .ok (m', entries)) : Mirrored docOf metaOf m'
      { s with entries := entries.foldl (fun es e => VectorStore.putEntry e es) s.entries } := by
  induction nodes generalizing m s entries with
  | nil =>
      cases henter
      exact h
  | cons n nodes ih =>
      obtain ⟨⟨m₁, v⟩, hadd, henter⟩ := bind_eq_ok.mp henter
      have hinside : m₁.backend.inProcess = true := backend_add hadd ▸ h.inProcess
      simp only [hinside, if_true] at henter
      obtain ⟨⟨m₂, more⟩, hrest, henter⟩ := bind_eq_ok.mp henter
      cases pure_eq_ok.mp henter
      have hput := h.put (hn n (by simp)) (n.embedding.getD []) hadd
      have hmore := ih hput (fun k hk => hn k (by simp [hk])) hrest
      exact hmore

/-- Where nodes are registered the new map mirrors the engine; where they are not the engine has not
changed. -/
theorem Mirrored.register (h : Mirrored docOf metaOf m s) (hn : ∀ n ∈ nodes, Described docOf metaOf n)
    (t : τ) : match (register (some (VectorStore.engine VectorStore.slot)) m nodes).run (t, s) with
      | (.error _, _, s') => s' = s
      | (.ok (m', _), _, s') => Mirrored docOf metaOf m' s' := by
  rw [register_run]
  cases henter : m.enter nodes with
  | error f => rfl
  | ok r =>
      obtain ⟨m', entries⟩ := r
      dsimp only
      cases hadd : s.add entries with
      | error f => rfl
      | ok r =>
          unfold VectorStore.add at hadd
          split at hadd <;> cases hadd
          exact h.enter hn henter

/-- An insertion keeps the map and the engine mirrored, also if it fails. -/
theorem Mirrored.insert (h : Mirrored docOf metaOf m s) (hn : ∀ n ∈ nodes, Described docOf metaOf n)
    (e : Embedder τ) (batchSize : Nat) (t : τ) :
    Mirrored docOf metaOf
      ((VectorMap.insert e.beside (some (VectorStore.engine VectorStore.slot)) batchSize m nodes).run
        (t, s)).1.map
      ((VectorMap.insert e.beside (some (VectorStore.engine VectorStore.slot)) batchSize m nodes).run
        (t, s)).2.2 := by
  unfold VectorMap.insert
  rw [h.inProcess]
  simp only [Bool.not_true, Bool.false_and, Bool.false_eq_true, if_false]
  obtain ⟨hstate, hfilled⟩ := embedMissing_leaves e batchSize nodes (t, s)
  rw [runState_bind]
  rcases hrun : (embedMissing e.beside batchSize nodes).run (t, s) with ⟨⟨done, embedded⟩, t', s'⟩
  rw [hrun] at hstate hfilled
  cases hstate
  have hdone : ∀ k ∈ done, Described docOf metaOf k := by
    intro k hk
    obtain ⟨n, hin, x, rfl⟩ := hfilled k hk
    exact hn n hin
  cases embedded with
  | error f => exact h
  | ok _ =>
      have hregister := h.register hdone t'
      dsimp only
      rw [runState_bind]
      dsimp only [StateT.run]
      rcases hr : (VectorMap.register (some (VectorStore.engine VectorStore.slot)) m done).run (t', s)
        with ⟨r, t'', s'⟩
      rw [hr] at hregister
      cases r with
      | error f =>
          cases hregister
          exact h
      | ok r => exact hregister

end VectorMap

/-! ### Deleting -/

namespace Corpus

variable {docOf : String → Option String} {metaOf : String → Metadata} {c : Corpus} {m : VectorMap}
  {s : VectorStore} {doc key : String}

/-- The engine lets go of a document once the corpus could. -/
theorem deleteEverywhere_run (c : Corpus) (doc : String) (t : τ) (s : VectorStore) :
    (c.deleteEverywhere (VectorStore.engine VectorStore.slot) doc).run (t, s) =
      match c.deleteDocument doc with
      | .error f => (.error f, (t, s))
      | .ok (rest, dropped) => (.ok (rest, dropped.values.flatten.length),
          (t, if c.listsVectorsOf doc then s.delete doc else s)) := by
  unfold deleteEverywhere
  cases hd : c.deleteDocument doc with
  | error f => rfl
  | ok r =>
      cases hl : c.listsVectorsOf doc <;> rfl

theorem listsVectorsOf_of_deleted {m' : VectorMap} {vs : List String}
    (hm : c.indices.indices.get? key = some (.vectors m)) (h : m.deleteDocument doc = .ok (m', vs)) :
    c.listsVectorsOf doc = true := by
  have hlisted : m.documents.contains doc = true := by
    unfold VectorMap.deleteDocument at h
    split at h
    next => cases h
    next vs hvs => exact SortedMap.contains_iff.mpr ⟨vs, hvs⟩
  exact List.any_eq_true.mpr ⟨.vectors m, SortedMap.mem_values.mpr ⟨key, hm⟩, hlisted⟩

/-- A deletion keeps the map of the corpus and the engine mirrored; one that fails changes neither. -/
theorem deleteEverywhere_mirrored (h : VectorMap.Mirrored docOf metaOf m s)
    (hm : c.indices.indices.get? key = some (.vectors m)) (doc : String) (t : τ) :
    match (c.deleteEverywhere (VectorStore.engine VectorStore.slot) doc).run (t, s) with
    | (.error _, _, s') => s' = s
    | (.ok (c', _), _, s') => ∃ m', c'.indices.indices.get? key = some (.vectors m') ∧
        VectorMap.Mirrored docOf metaOf m' s' := by
  rw [deleteEverywhere_run]
  cases hdel : c.deleteDocument doc with
  | error f => rfl
  | ok r =>
      obtain ⟨c', dropped⟩ := r
      dsimp only
      have hget := (indices_deleteDocument hdel key).mpr ⟨.vectors m, hm, rfl⟩
      cases hd : m.deleteDocument doc with
      | error f =>
          have hsame : s.delete doc = s := h.delete_unlisted (VectorMap.deleteDocument_error hd).2
          rw [hsame, ite_self]
          refine ⟨m, ?_, h⟩
          rw [hget, Index.deleteDocument, hd]
          rfl
      | ok r =>
          obtain ⟨m', vs⟩ := r
          rw [listsVectorsOf_of_deleted hm hd, if_pos rfl]
          refine ⟨m', ?_, h.delete hd⟩
          rw [hget, Index.deleteDocument, hd]
          rfl

end Corpus
end CorpusIndex
