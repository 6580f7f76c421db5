import CorpusIndex.Build.Relations
import CorpusIndex.Proofs.Indexing.Undone
import CorpusIndex.Proofs.Relations.Records

/-!
# Relation graphs of a batch

A graph built over a batch files every node under the ends of its facts, lists all the facts and embeds their
texts. Which node stated a fact is not kept. Deleting a document therefore leaves the table of the other
nodes, and every fact between keywords of that table, also one that only the document stated
(`deletion_keeps_named_facts`); embedded texts all stay.
-/
namespace CorpusIndex.RelationGraph

variable {σ : Type} {g : RelationGraph} {R : String → String → Prop} {F : Triplet → Prop}
  {triplets : String → List Triplet} {batch : List Node} {id doc : String} {t : Triplet} {store : NodeStore}
  {x : TripletExtractor σ} {most : Nat} {embedder : Option (Embedder σ)} {f : String → Embedding}

/-! ### The facts of a batch -/

/-- The facts of one node stated one after another. -/
def stateAll (g : RelationGraph) (ts : List Triplet) (node : String) : RelationGraph :=
  ts.foldl (fun g t => g.upsert t node) g

theorem Records.stateAll (h : g.Records R F) (ts : List Triplet) (node : String) :
    (g.stateAll ts node).Records (fun k i => R k i ∨ ((∃ t ∈ ts, t.Names k) ∧ i = node))
      fun u => F u ∨ u ∈ ts := by
  induction ts generalizing g R F with
  | nil => exact h.congr (by simp) (by simp)
  | cons t ts ih =>
      refine (ih (h.upsert t node)).congr (fun k i => ?_) fun u => ?_
      · rw [List.exists_mem_cons_iff]
        tauto
      · rw [List.mem_cons]
        tauto

/-- The facts of all nodes stated, none embedded. -/
def stated (triplets : String → List Triplet) (id : String) (batch : List Node) : RelationGraph :=
  batch.foldl (fun g n => g.stateAll (triplets n.text) n.id) { id }

theorem stated_append (n : Node) :
    stated triplets id (batch ++ [n]) = (stated triplets id batch).stateAll (triplets n.text) n.id := by
  simp [stated]

theorem stated_records (triplets : String → List Triplet) (id : String) (batch : List Node) :
    (stated triplets id batch).Records
      (fun k i => ∃ n ∈ batch, n.id = i ∧ ∃ t ∈ triplets n.text, t.Names k)
      fun t => ∃ n ∈ batch, t ∈ triplets n.text := by
  induction batch using List.reverseRecOn with
  | nil => exact (Records.empty id).congr (by simp) (by simp)
  | append_singleton batch n ih =>
      rw [stated_append]
      refine (ih.stateAll (triplets n.text) n.id).congr (fun k i => ?_) fun u => ?_
      · simp only [List.mem_append, List.mem_singleton, or_and_right, exists_or, exists_eq_left]
        exact or_congr_right ⟨fun ⟨hk, hi⟩ => ⟨hi.symm, hk⟩, fun ⟨hi, hk⟩ => ⟨hk, hi.symm⟩⟩
      · simp only [List.mem_append, List.mem_singleton, or_and_right, exists_or, exists_eq_left]

/-- The texts of all facts. -/
def statedTexts (triplets : String → List Triplet) (batch : List Node) : List String :=
  batch.flatMap fun n => (triplets n.text).map Triplet.text

/-- The texts with their embeddings, if they are embedded at all. -/
def textVectors (embeds : Bool) (f : String → Embedding) (texts : List String) :
    List (String × Embedding) :=
  if embeds then texts.map fun text => (text, f text) else []

/-- The graph that states the facts of a batch and embeds their texts. -/
def ofBatch (triplets : String → List Triplet) (embeds : Bool) (f : String → Embedding) (id : String)
    (batch : List Node) : RelationGraph :=
  (textVectors embeds f (statedTexts triplets batch)).foldl (fun g v => g.embed v.1 v.2)
    (stated triplets id batch)

/-- Embedding texts changes nothing else. -/
theorem foldl_embed (vectors : List (String × Embedding)) (g : RelationGraph) :
    vectors.foldl (fun g v => g.embed v.1 v.2) g =
      { g with embeddings := vectors.foldl (fun m v => m.insert v.1 v.2) g.embeddings } := by
  induction vectors generalizing g with
  | nil => rfl
  | cons v vectors ih => exact ih (g.embed v.1 v.2)

theorem ofBatch_records (triplets : String → List Triplet) (embeds : Bool) (f : String → Embedding)
    (id : String) (batch : List Node) : (ofBatch triplets embeds f id batch).Records
      (fun k i => ∃ n ∈ batch, n.id = i ∧ ∃ t ∈ triplets n.text, t.Names k)
      fun t => ∃ n ∈ batch, t ∈ triplets n.text := by
  obtain ⟨htable, hlisted, hnamed, hstated, hnodup⟩ := stated_records triplets id batch
  rw [ofBatch, foldl_embed]
  exact ⟨htable, hlisted, hnamed, hstated, hnodup⟩

theorem embeddings_stateAll (g : RelationGraph) (ts : List Triplet) (node : String) :
    (g.stateAll ts node).embeddings = g.embeddings := by
  induction ts generalizing g with
  | nil => rfl
  | cons t ts ih => exact ih (g.upsert t node)

theorem embeddings_stated (triplets : String → List Triplet) (id : String) (batch : List Node) :
    (stated triplets id batch).embeddings = ∅ := by
  induction batch using List.reverseRecOn with
  | nil => rfl
  | append_singleton batch n ih => rw [stated_append, embeddings_stateAll, ih]

theorem embedded_ofBatch {embeds : Bool} {text : String} :
    (ofBatch triplets embeds f id batch).embeddings.contains text = true ↔
      embeds = true ∧ ∃ n ∈ batch, ∃ t ∈ triplets n.text, t.text = text := by
  rw [ofBatch, foldl_embed, SortedMap.foldl_insert_contains, embeddings_stated]
  simp only [textVectors, statedTexts, SortedMap.contains, SortedMap.get?_emptyCollection]
  cases embeds <;> simp [List.mem_flatMap]

/-! ### Building -/

theorem embedFacts_run (textwise : ∀ e, embedder = some e → e.Textwise f) (texts : List String) (s : σ) :
    ((embedFacts embedder texts).run s).1 = .ok (textVectors embedder.isSome f texts) := by
  cases embedder with
  | none => rfl
  | some e =>
      rw [Option.isSome_some]
      unfold embedFacts textVectors
      dsimp only
      split
      next hnil =>
        rw [List.isEmpty_iff.mp hnil]
        rfl
      next =>
        obtain ⟨s', hs'⟩ := run_bind_of_ok (external_run_of_ok ((textwise e rfl).embeds texts s))
          fun vectors => pure (texts.zip vectors)
        rw [hs', if_pos rfl, ← List.map_prod_left_eq_zip]
        rfl

/-- An extractor that answers by the text and an embedder that works text by text build the graph of the
batch, in any state. -/
theorem build_run
    (extracts : ∀ n ∈ batch, ∀ s, ((x.triplets n.text most).run s).1 = .ok (triplets n.text))
    (textwise : ∀ e, embedder = some e → e.Textwise f) (s : σ) :
    ((build x most embedder id batch).run s).1 = .ok (ofBatch triplets embedder.isSome f id batch) := by
  have hone (n : Node) (hn : n ∈ batch) (s : σ) : ((do
      return (n.id, ← (x.triplets n.text most).external) : Action σ (String × List Triplet)).run s).1 =
        .ok (n.id, triplets n.text) := by
    obtain ⟨s', hs'⟩ := run_bind_of_ok (external_run_of_ok (extracts n hn s)) fun ts => pure (n.id, ts)
    rw [hs']
    rfl
  have htexts : (batch.map fun n => (n.id, triplets n.text)).flatMap (fun f => f.2.map Triplet.text) =
      statedTexts triplets batch := List.flatMap_map ..
  unfold build insert
  obtain ⟨s₁, h₁⟩ := run_bind_of_ok (mapM_run hone s) fun found => do
    let vectors ← embedFacts embedder (found.flatMap (fun f => f.2.map Triplet.text))
    let g := found.foldl (fun g f => f.2.foldl (fun g t => g.upsert t f.1) g) ({ id } : RelationGraph)
    return vectors.foldl (fun g v => g.embed v.1 v.2) g
  rw [h₁]
  obtain ⟨s₂, h₂⟩ := run_bind_of_ok (embedFacts_run textwise (statedTexts triplets batch) s₁) fun vectors =>
    let g := (batch.map fun n => (n.id, triplets n.text)).foldl
      (fun g f => f.2.foldl (fun g t => g.upsert t f.1) g) ({ id } : RelationGraph)
    pure (vectors.foldl (fun g v => g.embed v.1 v.2) g)
  rw [htexts, h₂, List.foldl_map]
  rfl

/-! ### Deleting -/

theorem embeddings_leaving (g : RelationGraph) (p : String → Bool) :
    (g.leaving p).embeddings = g.embeddings := by
  unfold leaving
  split <;> rfl

/-- The graph of a batch loses a document to the table of the other nodes, and keeps the facts whose subject
and object that table still names. -/
theorem deletion_keeps_named_facts (held : store.Holds batch) (doc id : String)
    (extracts : ∀ n ∈ batch, ∀ s, ((x.triplets n.text most).run s).1 = .ok (triplets n.text))
    (textwise : ∀ e, embedder = some e → e.Textwise f) (s s' : σ) :
    ∃ g g' kept, ((build x most embedder id batch).run s).1 = .ok g ∧
      ((build x most embedder id (withoutDocument doc batch)).run s').1 = .ok g' ∧
      Index.DropsTo store doc (.relations g) (.relations kept) ∧
      kept.table = g'.table ∧
      (∀ t, kept.Lists t ↔ (∃ n ∈ batch, t ∈ triplets n.text) ∧
        g'.table.contains t.subject = true ∧ g'.table.contains t.object = true) ∧
      (∀ t, g'.Lists t → kept.Lists t) ∧
      (∀ s pairs, kept.relations.get? s = some pairs → pairs ≠ []) ∧
      kept.embeddings = g.embeddings ∧
      ∀ text, g.embeddings.contains text = true ↔
        embedder.isSome = true ∧ ∃ n ∈ batch, ∃ t ∈ triplets n.text, t.text = text := by
  have hg := ofBatch_records triplets embedder.isSome f id batch
  have hg' := ofBatch_records triplets embedder.isSome f id (withoutDocument doc batch)
  have hkept := hg.leaving (store.owns doc)
  have hstored : (Index.relations (ofBatch triplets embedder.isSome f id batch)).Resolves store := by
    intro i hi
    obtain ⟨k, n, hn, rfl, _⟩ := hg.table.mem_nodeIds.mp (SortedSet.mem_elems.mp hi)
    exact held.contains hn
  have hdrops : Index.DropsTo store doc (.relations (ofBatch triplets embedder.isSome f id batch))
      (.relations ((ofBatch triplets embedder.isSome f id batch).leaving (store.owns doc))) :=
    ⟨deleteDocument_leaves hstored, Index.Deletable.outcome ⟨fun f hf => (by cases hf), hstored⟩⟩
  have htable := hkept.table.unique hg'.table fun k i => by
    constructor
    · rintro ⟨⟨n, hn, rfl, hk⟩, hother⟩
      refine ⟨n, mem_withoutDocument.mpr ⟨hn, fun hdoc => ?_⟩, rfl, hk⟩
      simp [held.owns hn, hdoc] at hother
    · rintro ⟨n, hn, rfl, hk⟩
      obtain ⟨hn, hdoc⟩ := mem_withoutDocument.mp hn
      exact ⟨⟨n, hn, rfl, hk⟩, by simp [held.owns hn, hdoc]⟩
  have hlists (t : Triplet) := hkept.listed t
  simp only [← hkept.table.contains_iff, htable] at hlists
  refine ⟨_, _, _, build_run extracts textwise s,
    build_run (fun n hn => extracts n (mem_withoutDocument.mp hn).1) textwise s', hdrops, htable, hlists,
    fun t ht => (hlists t).mpr ?_, hkept.stated, embeddings_leaving .., fun text => embedded_ofBatch⟩
  obtain ⟨n, hn, hin⟩ := (hg'.listed t).mp ht
  exact ⟨⟨n, (mem_withoutDocument.mp hn).1, hin⟩,
    (hg'.named t ⟨n, hn, hin⟩).imp hg'.table.contains_iff.mpr hg'.table.contains_iff.mpr⟩

/-! ### A fact between people whom others name too -/

/-- `A` alone says that the two know each other; `B` names both. -/
def introductions : List Node :=
  [{ id := "n1", text := "alice knows bob", document := some "A" },
    { id := "n2", text := "alice likes tea", document := some "B" },
    { id := "n3", text := "bob likes tea", document := some "B" }]

def introductionStore : NodeStore := introductions.foldl NodeStore.put {}

def introducing : Triplet := ⟨"alice", "knows", "bob"⟩

/-- The one fact of each of the texts. -/
def introductionFacts (text : String) : List Triplet :=
  if text = "alice knows bob" then [introducing]
  else if text = "alice likes tea" then [⟨"alice", "likes", "tea"⟩]
  else if text = "bob likes tea" then [⟨"bob", "likes", "tea"⟩]
  else []

/-- Reads the facts of the texts, and counts its calls. -/
def introductionReader : TripletExtractor Nat where
  triplets text _ := do
    modify (· + 1)
    return introductionFacts text

theorem holds_introductions : introductionStore.Holds introductions := by
  intro n hn
  simp only [introductions, List.mem_cons, List.not_mem_nil, or_false] at hn
  rcases hn with rfl | rfl | rfl <;> exact ⟨_, rfl, rfl⟩

theorem introductionReader_extracts (batch : List Node) : ∀ n ∈ batch, ∀ s,
    ((introductionReader.triplets n.text 5).run s).1 = .ok (introductionFacts n.text) := fun _ _ _ => rfl

theorem countingEmbedder_bound (e : Embedder Nat) (he : some countingEmbedder = some e) :
    e.Textwise fun _ => [0] := by
  cases he
  exact textwise_countingEmbedder

theorem build_introductions (batch : List Node) (s : Nat) :
    ((build introductionReader 5 (some countingEmbedder) "kg" batch).run s).1 =
      .ok (ofBatch introductionFacts true (fun _ => [0]) "kg" batch) :=
  build_run (introductionReader_extracts batch) countingEmbedder_bound s

/-- Without `A` the fact between the two is still listed. -/
theorem deletion_keeps_named_facts_introductions :
    ∃ g kept, ((build introductionReader 5 (some countingEmbedder) "kg" introductions).run 0).1 = .ok g ∧
      Index.DropsTo introductionStore "A" (.relations g) (.relations kept) ∧ kept.Lists introducing ∧
        kept.embeddings = g.embeddings := by
  obtain ⟨g, g', kept, hg, hg', hdrops, _, hlists, _, _, hembeddings, _⟩ :=
    deletion_keeps_named_facts holds_introductions "A" "kg" (introductionReader_extracts introductions)
      countingEmbedder_bound 0 7
  cases hg'.symm.trans (build_introductions _ 7)
  refine ⟨g, kept, hg, hdrops, (hlists introducing).mpr ⟨?_, by decide, by decide⟩, hembeddings⟩
  exact ⟨_, List.mem_cons_self, by decide⟩

/-- Deleting a document does not always leave the graph of the other nodes: a fact that only the document
stated is still listed, and its text is still embedded. -/
theorem deletion_leaves_unstated_fact :
    ∃ g g' kept, ((build introductionReader 5 (some countingEmbedder) "kg" introductions).run 0).1 = .ok g ∧
      ((build introductionReader 5 (some countingEmbedder) "kg"
        (withoutDocument "A" introductions)).run 0).1 = .ok g' ∧
      Index.DropsTo introductionStore "A" (.relations g) (.relations kept) ∧
      (kept.Lists introducing ∧ ¬ g'.Lists introducing) ∧
      (kept.embeddings.contains introducing.text = true ∧
        g'.embeddings.contains introducing.text = false) := by
  refine ⟨_, _, _, build_introductions _ 0, build_introductions _ 0, ⟨rfl, .inl ⟨_, rfl⟩⟩, ⟨?_, ?_⟩, ?_⟩
  · unfold Lists
    decide
  · unfold Lists
    decide
  · decide

end CorpusIndex.RelationGraph
