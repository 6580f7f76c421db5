import CorpusIndex.Proofs.Vectors.Retrieval

/-!
# Runs on a vector map and its engine

A run starts from an empty in-process map in a corpus and an empty engine. Insertions and deletions
follow in any order, some of them failing, and between them everything but the map may change. A node id
always comes with the same document and the same metadata. The map and the engine stay mirrored all
along, so queries are answered alike with the engine and without.
-/
namespace CorpusIndex.VectorMap

variable {docOf : String → Option String} {metaOf : String → Metadata} {key : String} {c : Corpus}
  {s : VectorStore}

/-- What a run can make of the corpus with the map under `key` and of the engine. -/
inductive Reached (docOf : String → Option String) (metaOf : String → Metadata) (key : String) :
    Corpus → VectorStore → Prop
  | start {c : Corpus} {id : String} {summary : Option String} {dimension : Nat}
      (map : c.indices.indices.get? key = some (.vectors { id, summary })) :
      Reached docOf metaOf key c ⟨dimension, []⟩
  | elsewhere {c c' : Corpus} {s : VectorStore} (before : Reached docOf metaOf key c s)
      (same : c'.indices.indices.get? key = c.indices.indices.get? key) : Reached docOf metaOf key c' s
  | inserted {τ : Type} {c : Corpus} {s s' : VectorStore} {m : VectorMap} {e : Embedder τ}
      {batchSize : Nat} {nodes : List Node} {t t' : τ} {r : Insertion}
      (before : Reached docOf metaOf key c s) (map : c.indices.indices.get? key = some (.vectors m))
      (described : ∀ n ∈ nodes, Described docOf metaOf n)
      (run : (insert e.beside (some (VectorStore.engine VectorStore.slot)) batchSize m nodes).run (t, s) =
        (r, (t', s'))) :
      Reached docOf metaOf key ⟨c.store, c.indices.replace key (.vectors r.map)⟩ s'
  | deleted {τ : Type} {c c' : Corpus} {s s' : VectorStore} {doc : String} {count : Nat} {t t' : τ}
      (before : Reached docOf metaOf key c s)
      (run : (c.deleteEverywhere (VectorStore.engine VectorStore.slot) doc).run (t, s) =
        (.ok (c', count), (t', s'))) : Reached docOf metaOf key c' s'
  | refused {τ : Type} {c : Corpus} {s s' : VectorStore} {doc : String} {f : Failure} {t t' : τ}
      (before : Reached docOf metaOf key c s)
      (run : (c.deleteEverywhere (VectorStore.engine VectorStore.slot) doc).run (t, s) =
        (.error f, (t', s'))) : Reached docOf metaOf key c s'

theorem Reached.mirrored (h : Reached docOf metaOf key c s) :
    ∃ m, c.indices.indices.get? key = some (.vectors m) ∧ Mirrored docOf metaOf m s := by
  induction h with
  | start map => exact ⟨_, map, .empty ..⟩
  | elsewhere _ same ih =>
      obtain ⟨m, hm, h⟩ := ih
      exact ⟨m, same.trans hm, h⟩
  | @inserted τ c s s' m e batchSize nodes t t' r _ map described run ih =>
      obtain ⟨m', hm, h⟩ := ih
      cases hm.symm.trans map
      have hinsert := h.insert described e batchSize t
      rw [run] at hinsert
      exact ⟨r.map, SortedMap.get?_insert_self .., hinsert⟩
  | @deleted τ c c' s s' doc count t t' _ run ih =>
      obtain ⟨m, hm, h⟩ := ih
      have hdelete := Corpus.deleteEverywhere_mirrored h hm doc t
      rw [run] at hdelete
      exact hdelete
  | @refused τ c s s' doc f t t' _ run ih =>
      obtain ⟨m, hm, h⟩ := ih
      have hdelete := Corpus.deleteEverywhere_mirrored h hm doc t
      rw [run] at hdelete
      cases hdelete
      exact ⟨m, hm, h⟩

/-- All along a run the map and the engine hold the same vectors in the same order, and the map sends
exactly their ids to nodes. Where the nodes are stored with their metadata, a query of the engine's
dimension gets the same answer with the engine and without, and it gets one if all scores are numbers. -/
theorem runs_stay_mirrored (h : Reached docOf metaOf key c s) :
    ∃ m, c.indices.indices.get? key = some (.vectors m) ∧
      m.embeddings = s.entries.map (fun e => (e.id, e.embedding)) ∧
      (∀ v id, m.nodes.get? v = some id ↔ id = v ∧ v ∈ m.embeddings.map (·.1)) ∧
      (Stocked c.store metaOf (m.embeddings.map (·.1)) →
        ∀ (τ : Type) (e : Embedder τ) (q : Query) (t t' : τ) (v : Embedding) (most : Nat)
          (filter : Option MetadataFilter), (q.embed e).run t = (.ok v, t') → v.length = s.dimension →
            (m.retrieve c.store e.beside (some (VectorStore.engine VectorStore.slot)) most filter q).run
                (t, s) =
              (m.retrieve c.store e.beside none most filter q).run (t, s) ∧
            ((∀ x ∈ m.embeddings, (cosine v x.2).isNaN = false) → ∃ r t'',
              (m.retrieve c.store e.beside none most filter q).run (t, s) = (.ok r, (t'', s)))) := by
  obtain ⟨m, hm, h⟩ := h.mirrored
  have hids : m.embeddings.map (·.1) = s.entries.map (·.id) := by
    rw [h.embeddings, List.map_map]
    rfl
  refine ⟨m, hm, h.embeddings, ?_, ?_⟩
  · rw [hids]
    exact h.nodes_iff
  · intro hstore τ e q t t' v most filter hq hv
    rw [hids] at hstore
    obtain ⟨r, t'', hwith, hwithout⟩ := h.retrieve hstore e q most filter hq hv
    exact ⟨hwith.trans hwithout.symm, fun _ => ⟨r, t'', hwithout⟩⟩

/-! ### A document comes and goes -/

def note (id text document kind : String) : Node :=
  { id, text, document := some document, metadata := .ofList [("kind", .text kind)] }

/-- Notes of two documents. -/
def threeNotes : List Node :=
  [note "a" "x" "A" "done", note "b" "y" "B" "done", note "c" "x" "B" "open"]

def noteDocument (id : String) : Option String := some (if id = "a" then "A" else "B")

def noteMetadata (id : String) : Metadata :=
  .ofList [("kind", .text (if id = "c" then "open" else "done"))]

/-- The notes are stored, and nothing is mapped yet. -/
def noteCorpus : Corpus :=
  ⟨⟨.ofList (threeNotes.map fun n => (n.id, n))⟩, ⟨.ofList [("v", .vectors { id := "v" })]⟩⟩

/-- One direction for the text `x`, and another for all others. -/
def twoWays : Embedder Unit :=
  ⟨2, fun texts => pure (texts.map fun t => if t = "x" then [1, 0] else [0, 1])⟩

/-- The notes are inserted two at a time. -/
def noteInsertion : Insertion × Unit × VectorStore :=
  (insert twoWays.beside (some (VectorStore.engine VectorStore.slot)) 2 { id := "v" } threeNotes).run
    ((), ⟨2, []⟩)

/-- Document `A` is deleted after that. -/
def noteDeletion : Except Failure (Corpus × Nat) × Unit × VectorStore :=
  (Corpus.deleteEverywhere (VectorStore.engine VectorStore.slot) "A"
    ⟨noteCorpus.store, noteCorpus.indices.replace "v" (.vectors noteInsertion.1.map)⟩).run
      ((), noteInsertion.2.2)

/-- The notes that are left, and their map. -/
def leftStore : NodeStore := ⟨.ofList [("b", note "b" "y" "B" "done"), ("c", note "c" "x" "B" "open")]⟩

def leftMap : VectorMap where
  id := "v"
  nodes := .ofList [("b", "b"), ("c", "c")]
  documents := .ofList [("B", ["b", "c"])]
  embeddings := [("b", [0, 1]), ("c", [1, 0])]

/-- What the engine keeps of them. -/
def leftEngine : VectorStore where
  dimension := 2
  entries := [⟨"b", [0, 1], some "B", noteMetadata "b"⟩, ⟨"c", [1, 0], some "B", noteMetadata "c"⟩]

def done : MetadataFilter := ⟨[("kind", .text "done")]⟩

theorem noteDeletion_leaves : ∃ c count, noteDeletion = (.ok (c, count), (), leftEngine) ∧
    c.store = leftStore ∧ c.indices.indices.get? "v" = some (.vectors leftMap) := by
  have hleft : (noteDeletion.1.toOption.map fun r => (r.1.store, r.1.indices.indices.get? "v")) =
      some (leftStore, some (.vectors leftMap)) := by decide +kernel
  have hengine : noteDeletion.2.2 = leftEngine := by decide +kernel
  generalize noteDeletion = out at *
  obtain ⟨_ | ⟨c, count⟩, _, s⟩ := out
  · cases hleft
  · obtain ⟨hstore, hmap⟩ := Prod.mk.inj (Option.some.inj hleft)
    cases hengine
    exact ⟨c, count, rfl, hstore, hmap⟩

theorem reached_noteDeletion {c : Corpus} {count : Nat} (h : noteDeletion = (.ok (c, count), (), leftEngine)) :
    Reached noteDocument noteMetadata "v" c leftEngine := by
  have hdescribed : ∀ n ∈ threeNotes, Described noteDocument noteMetadata n := by
    simp only [threeNotes, List.forall_mem_cons]
    exact ⟨⟨rfl, rfl⟩, ⟨rfl, rfl⟩, ⟨rfl, rfl⟩, by simp⟩
  have hinsertion : (insert twoWays.beside (some (VectorStore.engine VectorStore.slot)) 2 { id := "v" }
      threeNotes).run ((), ⟨2, []⟩) = (noteInsertion.1, ((), noteInsertion.2.2)) := rfl
  have hstart : Reached noteDocument noteMetadata "v" noteCorpus ⟨2, []⟩ := .start rfl
  exact .deleted (.inserted hstart rfl hdescribed hinsertion) h

theorem stocked_leftStore : Stocked leftStore noteMetadata (leftMap.embeddings.map (·.1)) := by
  intro id hid
  rcases List.mem_cons.mp hid with rfl | hid
  · exact ⟨note "b" "y" "B" "done", rfl, rfl⟩
  · cases List.mem_singleton.mp hid
    exact ⟨note "c" "x" "B" "open", rfl, rfl⟩

/-- Two notes of the three are left, and a query for what is done finds one of these on either way. -/
theorem runs_stay_mirrored_threeNotes : ∃ c count r t, noteDeletion = (.ok (c, count), (), leftEngine) ∧
    (leftMap.retrieve c.store twoWays.beside (some (VectorStore.engine VectorStore.slot)) 2 (some done)
      { text := "x" }).run ((), leftEngine) = (.ok r, (t, leftEngine)) ∧
    (leftMap.retrieve c.store twoWays.beside none 2 (some done) { text := "x" }).run ((), leftEngine) =
      (.ok r, (t, leftEngine)) ∧
    r.hits.map (·.node.id) = ["b"] := by
  obtain ⟨c, count, hrun, hstore, hmap⟩ := noteDeletion_leaves
  obtain ⟨m, hm, _, _, hanswers⟩ := runs_stay_mirrored (reached_noteDeletion hrun)
  cases hm.symm.trans hmap
  have hnumbers : ∀ x ∈ leftMap.embeddings, (cosine [1, 0] x.2).isNaN = false := by decide +kernel
  obtain ⟨halike, hanswered⟩ := hanswers (hstore ▸ stocked_leftStore) Unit twoWays { text := "x" } () ()
    [1, 0] 2 (some done) rfl rfl
  obtain ⟨r, t, hwithout⟩ := hanswered hnumbers
  have hids : ((leftMap.retrieve leftStore twoWays.beside none 2 (some done) { text := "x" }).run
      ((), leftEngine)).1.toOption.map (·.hits.map (·.node.id)) = some ["b"] := by decide +kernel
  rw [← hstore, hwithout] at hids
  exact ⟨c, count, r, t, hrun, halike.trans hwithout, hwithout, Option.some.inj hids⟩

end CorpusIndex.VectorMap
