import CorpusIndex.Proofs.Indexing.Vectors
import CorpusIndex.Proofs.Vectors.Renaming

/-!
# Batches of texts to embed

An insertion has the nodes without an embedding embedded in batches. An embedder that maps texts one by one
makes of the batches what it makes of all the nodes at once: batch after batch, vectors are put onto nodes
up to the first of a wrong dimension (`embedBatches_settles`). What follows depends on the nodes alone, so
the size of the batches shows nowhere but in the embedder's own state.
-/
namespace CorpusIndex

variable {τ ρ α β : Type}

/-! ### An embedder and an engine -/

/-- What an engine is asked to do. -/
inductive EngineCall where
  | add (entries : List VectorEntry)
  | query (v : Embedding) (most : Nat) (filter : Option MetadataFilter)
  | delete (doc : String)

/-- The states of an embedder and of an engine, and the calls the engine was given. -/
structure Parties (τ ρ : Type) where
  embedder : τ
  engine : ρ
  calls : List EngineCall

/-- The embedder as one of the parties. -/
def Embedder.party (e : Embedder τ) : Embedder (Parties τ ρ) where
  dim := e.dim
  embedBatch texts := (e.embedBatch texts).within ⟨Parties.embedder, fun t p => { p with embedder := t }⟩

/-- A call of the engine among the parties, which is recorded before it is made. -/
def Parties.call (c : EngineCall) (run : Call ρ α) : Call (Parties τ ρ) α := do
  modify fun p => { p with calls := p.calls ++ [c] }
  run.within ⟨Parties.engine, fun s p => { p with engine := s }⟩

/-- The engine as one of the parties. -/
def VectorEngine.party (engine : VectorEngine ρ) : VectorEngine (Parties τ ρ) where
  add entries := Parties.call (.add entries) (engine.add entries)
  query v most filter := Parties.call (.query v most filter) (engine.query v most filter)
  delete doc := Parties.call (.delete doc) (engine.delete doc)

/-- Whatever the state, the answer is `x`, and only the embedder's part of the state changes. -/
def Settles (a : StateM (Parties τ ρ) α) (x : α) : Prop :=
  ∀ p, ∃ t, a.run p = (x, { p with embedder := t })

namespace Settles

theorem pure (x : α) : Settles (Pure.pure x : StateM (Parties τ ρ) α) x := fun p => ⟨p.embedder, rfl⟩

theorem bind {a : StateM (Parties τ ρ) α} {g : α → StateM (Parties τ ρ) β} {x : α} {y : β}
    (ha : Settles a x) (hg : Settles (g x) y) : Settles (a >>= g) y := by
  intro p
  obtain ⟨t, ht⟩ := ha p
  obtain ⟨u, hu⟩ := hg { p with embedder := t }
  exact ⟨u, by rw [runState_bind, ht, hu]⟩

end Settles

/-- The embedder's part of the state neither matters nor changes. -/
def Overlooks (a : Action (Parties τ ρ) α) : Prop :=
  ∀ s calls, ∃ r s' calls', ∀ t, a.run ⟨t, s, calls⟩ = (r, ⟨t, s', calls'⟩)

namespace Overlooks

theorem pure (x : α) : Overlooks (Pure.pure x : Action (Parties τ ρ) α) :=
  fun s calls => ⟨.ok x, s, calls, fun _ => rfl⟩

theorem throw (f : Failure) : Overlooks (MonadExcept.throw f : Action (Parties τ ρ) α) :=
  fun s calls => ⟨.error f, s, calls, fun _ => rfl⟩

theorem bind {a : Action (Parties τ ρ) α} {g : α → Action (Parties τ ρ) β} (ha : Overlooks a)
    (hg : ∀ x, Overlooks (g x)) : Overlooks (a >>= g) := by
  intro s calls
  obtain ⟨r, s₁, calls₁, hr⟩ := ha s calls
  cases r with
  | error f => exact ⟨.error f, s₁, calls₁, fun t => by rw [run_bind, hr]⟩
  | ok x =>
      obtain ⟨r, s₂, calls₂, hr'⟩ := hg x s₁ calls₁
      exact ⟨r, s₂, calls₂, fun t => by rw [run_bind, hr]; exact hr' t⟩

theorem checked_bind (x : Except Failure α) {g : α → Action (Parties τ ρ) β} (hg : ∀ a, Overlooks (g a)) :
    Overlooks ((liftM x : Action (Parties τ ρ) α) >>= g) := by
  cases x with
  | error f => exact fun s calls => ⟨.error f, s, calls, fun _ => rfl⟩
  | ok a => exact hg a

theorem call (c : EngineCall) (run : Call ρ α) :
    Overlooks (τ := τ) (Parties.call c run).external := by
  intro s calls
  refine ⟨(run.external.run s).1, (run.run s).2, calls ++ [c], fun t => ?_⟩
  have hcall : (Parties.call c run).run ⟨t, s, calls⟩ =
      ((run.run s).1, ⟨t, (run.run s).2, calls ++ [c]⟩) := rfl
  rw [external_run, external_run, hcall]
  rcases run.run s with ⟨r, s'⟩
  cases r <;> rfl

end Overlooks

/-- The embedder maps every text on its own, always by the same function. -/
def Embedder.Maps (e : Embedder τ) (f : String → Embedding) : Prop :=
  ∀ texts t, ((e.embedBatch texts).run t).1 = .ok (texts.map f)

theorem Embedder.Maps.external {e : Embedder τ} {f : String → Embedding} (h : e.Maps f)
    (texts : List String) : Settles (ρ := ρ) (e.party.embedBatch texts).external.run (.ok (texts.map f)) := by
  intro p
  refine ⟨((e.embedBatch texts).run p.embedder).2, ?_⟩
  have hrun : (e.party.embedBatch texts).run p =
      (.ok (texts.map f), { p with embedder := ((e.embedBatch texts).run p.embedder).2 }) :=
    Prod.ext (h texts p.embedder) rfl
  exact (external_run _ p).trans (by rw [hrun])

namespace VectorMap

variable {e : Embedder τ} {f : String → Embedding} {dim : ℕ} {batch rest nodes done : List Node}
  {vs ws : List Embedding} {m : VectorMap}

/-! ### Vectors put onto nodes -/

/-- Vectors are put onto the nodes of two batches as onto one batch. -/
theorem takeVectors_append (hlength : vs.length = batch.length) :
    takeVectors dim (batch ++ rest) (vs ++ ws) = match takeVectors dim batch vs with
      | (done, .error f) => (done ++ rest, .error f)
      | (done, .ok ()) => (done ++ (takeVectors dim rest ws).1, (takeVectors dim rest ws).2) := by
  induction batch generalizing vs with
  | nil =>
      have hvs := List.eq_nil_of_length_eq_zero hlength
      subst hvs
      rfl
  | cons n batch ih =>
      cases vs with
      | nil => cases hlength
      | cons v vs =>
          rw [List.cons_append, List.cons_append, takeVectors, takeVectors, ih (by simpa using hlength)]
          split
          · rfl
          · rcases takeVectors dim batch vs with ⟨done, r⟩
            cases r <;> rfl

/-- The nodes with the vectors of their texts, up to the first of a wrong dimension. -/
def taken (f : String → Embedding) (dim : ℕ) (nodes : List Node) : List Node × Except Failure Unit :=
  takeVectors dim nodes (nodes.map fun n => f n.text)

theorem taken_append (batch rest : List Node) :
    taken f dim (batch ++ rest) = match taken f dim batch with
      | (done, .error fault) => (done ++ rest, .error fault)
      | (done, .ok ()) => (done ++ (taken f dim rest).1, (taken f dim rest).2) := by
  rw [taken, List.map_append, takeVectors_append (by simp)]
  rfl

theorem taken_embeds (h : taken f dim batch = (done, .ok ())) :
    List.Forall₂ (Embedded fun text v => v = f text) batch done := by
  induction batch generalizing done with
  | nil =>
      cases h
      exact .nil
  | cons n batch ih =>
      rw [taken, List.map_cons, takeVectors] at h
      split at h
      next => cases h
      next =>
        obtain ⟨rfl, hok⟩ := Prod.ext_iff.mp h
        exact .cons ⟨f n.text, rfl, rfl⟩ (ih (Prod.ext rfl hok))

/-! ### Embedding -/

theorem embedBatch_settles (h : e.Maps f) (batch : List Node) :
    Settles (ρ := ρ) (embedBatch e.party batch) (taken f e.dim batch) := by
  unfold embedBatch
  refine Settles.bind (h.external _) ?_
  have hlength : ((batch.map (·.text)).map f).length = batch.length := by simp
  dsimp only
  rw [if_neg (not_not.mpr hlength), List.map_map]
  exact Settles.pure _

/-- Batches are embedded as if they were one. -/
theorem embedBatches_settles (h : e.Maps f) (batches : List (List Node)) :
    Settles (ρ := ρ) (embedBatches e.party batches) (taken f e.dim batches.flatten) := by
  induction batches with
  | nil => exact Settles.pure _
  | cons batch batches ih =>
      unfold embedBatches
      refine Settles.bind (embedBatch_settles h batch) ?_
      rw [List.flatten_cons, taken_append]
      rcases taken f e.dim batch with ⟨done, r⟩
      cases r with
      | error fault => exact Settles.pure _
      | ok _ => exact Settles.bind ih (Settles.pure _)

/-- The nodes without an embedding take the vectors of their texts, up to the first of a wrong dimension. -/
def embeddedAll (f : String → Embedding) (dim : ℕ) (nodes : List Node) : List Node × Except Failure Unit :=
  (putBack nodes (taken f dim (nodes.filter (·.embedding.isNone))).1,
    (taken f dim (nodes.filter (·.embedding.isNone))).2)

theorem embedMissing_settles (h : e.Maps f) (batchSize : ℕ) (nodes : List Node) :
    Settles (ρ := ρ) (embedMissing e.party batchSize nodes) (embeddedAll f e.dim nodes) := by
  have hbatches := embedBatches_settles (ρ := ρ) h
    (groups (max batchSize 1) (nodes.filter (·.embedding.isNone)))
  rw [flatten_groups] at hbatches
  exact hbatches.bind (Settles.pure _)

theorem embeddedAll_filled (h : (embeddedAll f dim nodes).2 = .ok ()) :
    (embeddedAll f dim nodes).1 = nodes.map (filled f) := by
  have hcompleted := putBack_completed nodes (taken_embeds (Prod.ext rfl h))
  have hall : List.Forall₂ Eq (nodes.map (filled f)) (embeddedAll f dim nodes).1 :=
    List.forall₂_map_left_iff.mpr (hcompleted.imp fun _ _ hn => (eq_filled_of_completed hn).symm)
  exact (List.forall₂_eq_eq_eq ▸ hall : nodes.map (filled f) = (embeddedAll f dim nodes).1).symm

/-! ### Registering -/

theorem register_overlooks (engine : Option (VectorEngine ρ)) (m : VectorMap) (nodes : List Node) :
    Overlooks (τ := τ) (register (engine.map VectorEngine.party) m nodes) := by
  unfold register
  refine Overlooks.checked_bind _ fun entered => ?_
  obtain ⟨m', entries⟩ := entered
  have hrebind (ids : List String) : Overlooks (τ := τ) (ρ := ρ) (do
      if ids.length ≠ (entries.map (·.id)).length then
        throw (.external (.idCount ids.length (entries.map (·.id)).length))
      return (← m'.rebindAll ((entries.map (·.id)).zip ids), ids)) := by
    split
    · exact Overlooks.bind (Overlooks.throw _) fun _ => Overlooks.checked_bind _ fun _ => Overlooks.pure _
    · exact Overlooks.checked_bind _ fun _ => Overlooks.pure _
  cases engine with
  | none => exact hrebind (entries.map (·.id))
  | some engine => exact Overlooks.bind (Overlooks.call _ _) hrebind

/-- An insertion ends alike for all sizes of batches, zero included, if the embedder maps every text on its
own: with the same map, the same nodes and the same ids or failure, and with an engine that was given the
same calls. Where it succeeds every node holds its own embedding, or the one of its text if it had none. -/
theorem insertions_ignore_batch_size (h : e.Maps f) (engine : Option (VectorEngine ρ)) (m : VectorMap)
    (nodes : List Node) (p : Parties τ ρ) :
    ∃ (r : Insertion) (s : ρ) (calls : List EngineCall),
      (∀ batchSize, ∃ t, (insert e.party (engine.map VectorEngine.party) batchSize m nodes).run p =
        (r, ⟨t, s, calls⟩)) ∧
      ∀ ids, r.result = .ok ids → r.nodes = nodes.map (filled f) := by
  have hnone : (engine.map VectorEngine.party : Option (VectorEngine (Parties τ ρ))).isNone = engine.isNone :=
    Option.isNone_map
  cases hbound : !m.backend.inProcess && engine.isNone with
  | true =>
      rw [← hnone] at hbound
      refine ⟨_, p.engine, p.calls, fun _ => ⟨p.embedder, insert_run_unbound hbound⟩, fun ids hids => ?_⟩
      cases hids
  | false =>
      rw [← hnone] at hbound
      have hembed (batchSize : ℕ) : ∃ t, (embedMissing e.party batchSize nodes).run p =
          (embeddedAll f e.dim nodes, { p with embedder := t }) := embedMissing_settles h batchSize nodes p
      have hfilled (hok : (embeddedAll f e.dim nodes).2 = .ok ()) := embeddedAll_filled hok
      rcases hall : embeddedAll f e.dim nodes with ⟨done, fault | _⟩ <;> rw [hall] at hembed hfilled
      · refine ⟨⟨m, done, .error fault⟩, p.engine, p.calls, fun batchSize => ?_, fun ids hids => ?_⟩
        · obtain ⟨t, ht⟩ := hembed batchSize
          exact ⟨t, insert_run_of_not_embedded hbound ht⟩
        · cases hids
      · obtain ⟨r, s, calls, hregister⟩ := register_overlooks (τ := τ) engine m done p.engine p.calls
        refine ⟨m.concluded done r, s, calls, fun batchSize => ?_, fun ids _ => ?_⟩
        · obtain ⟨t, ht⟩ := hembed batchSize
          exact ⟨t, insert_run_of_embedded hbound ht (hregister t)⟩
        · rw [← hfilled rfl]
          cases r <;> rfl

/-- The vector `[1]` for every text but the empty one, whose vector has no entry. -/
def oneUnlessEmpty (text : String) : Embedding := if text = "" then [] else [1]

/-- Embeds by `oneUnlessEmpty`, and counts its calls. -/
def callCounter : Embedder ℕ where
  dim := 1
  embedBatch texts := do
    modify (· + 1)
    return texts.map oneUnlessEmpty

/-- Two nodes without an embedding around one with its own. -/
def aroundOwn (text : String) : List Node :=
  [{ id := "a", text := "x" }, { id := "b", text := "y", embedding := some [2] }, { id := "c", text }]

def insertAroundOwn (text : String) (batchSize : ℕ) : Insertion × Parties ℕ VectorStore :=
  (insert callCounter.party ((some (VectorStore.engine ⟨fun s => s, fun s _ => s⟩)).map VectorEngine.party)
    batchSize { id := "m", backend := .qdrant } (aroundOwn text)).run ⟨0, { dimension := 1 }, []⟩

/-- Whether two texts are embedded in one call or in two, the engine takes the same three entries. Where the
second text is empty, the first node alone is filled and the engine is not called. -/
theorem insertions_ignore_batch_size_aroundOwn : callCounter.Maps oneUnlessEmpty ∧
    (∃ m entries, ∀ batchSize, ∃ t, insertAroundOwn "z" batchSize =
      (⟨m, (aroundOwn "z").map (filled oneUnlessEmpty), .ok ["a", "b", "c"]⟩,
        ⟨t, ⟨1, entries⟩, [.add entries]⟩)) ∧
    ∀ batchSize, ∃ t, insertAroundOwn "" batchSize =
      (⟨{ id := "m", backend := .qdrant },
        { id := "a", text := "x", embedding := some [1] } :: (aroundOwn "").tail,
        .error (.external (.vectorDimension "c" 0 1))⟩, ⟨t, ⟨1, []⟩, []⟩) := by
  have hmaps : callCounter.Maps oneUnlessEmpty := fun _ _ => rfl
  have hgroups (text : String) : groups (max 2 1) ((aroundOwn text).filter (·.embedding.isNone)) =
      [[{ id := "a", text := "x" }, { id := "c", text }]] := by
    simp [groups, aroundOwn]
  have hrun (text : String) := insertions_ignore_batch_size hmaps
    (some (VectorStore.engine ⟨fun s => s, fun s _ => s⟩)) { id := "m", backend := .qdrant } (aroundOwn text)
    ⟨0, { dimension := 1 }, []⟩
  refine ⟨hmaps, ?_, ?_⟩
  · obtain ⟨r, s, calls, hrun, _⟩ := hrun "z"
    obtain ⟨t, ht⟩ := hrun 2
    rw [insert, embedMissing, hgroups] at ht
    obtain ⟨rfl, hs⟩ := Prod.ext_iff.mp ht
    cases hs
    exact ⟨_, _, hrun⟩
  · obtain ⟨r, s, calls, hrun, _⟩ := hrun ""
    obtain ⟨t, ht⟩ := hrun 2
    rw [insert, embedMissing, hgroups] at ht
    obtain ⟨rfl, hs⟩ := Prod.ext_iff.mp ht
    cases hs
    exact hrun

end VectorMap
end CorpusIndex
