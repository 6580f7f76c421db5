import Mathlib.Algebra.Group.Nat.Defs
import CorpusIndex.Proofs.Grove.Levels
import CorpusIndex.Proofs.Ingest.Root
import CorpusIndex.Proofs.Ingest.Vectors

/-!
# The indices of an ingest

Chunks, summaries and the nodes that stand for indices share one store, and each kind has ids that no other
kind has. No step of building the indices over new chunks fails therefore, and what was built refers to
exactly the chunks (`Corpus.Indexes`). Only vectors of a dimension that cannot be had are refused.
-/
namespace CorpusIndex

variable {s : Shell}

/-! ### Steps of a command -/

namespace Command
variable {α β : Type} {dim : Nat}

theorem ofExcept_ok (a : α) : ofExcept (.ok a) = pure a := rfl

theorem run_modify_bind (f : Shell → Shell) (next : PUnit → Command α) (s : Shell) :
    ((modify f : Command PUnit) >>= next).run s = (next ⟨⟩).run (f s) := rfl

theorem run_lift_bind (a : StateM Shell α) (next : α → Command β) (s : Shell) :
    ((liftM a : Command α) >>= next).run s = (next (a.run s).1).run (a.run s).2 := rfl

/-- An operation of the library that leaves the shell as it is. -/
theorem run_ofAction_bind {a : Action Shell α} {x : α} {s : Shell} (h : a.run s = (.ok x, s))
    (next : α → Command β) : (ofAction a >>= next).run s = (next x).run s := by
  have hrun : (ofAction a).run s = (.ok x, s) := by
    change (((a.run s).1.mapError CommandFailure.failure), (a.run s).2) = _
    rw [h]
    rfl
  rw [run_bind, hrun]

/-- The cache has vectors of one dimension, and no vector is stored yet. -/
def Ready (dim : Nat) (s : Shell) : Prop := s.cache.Sized dim ∧ s.vectors = { dimension := dim }

/-- Hashed vectors behind the cache of the shell. -/
def usualEmbedder (dim : Nat) : CachedEmbedder Shell :=
  ⟨⟨dim, Hashed.embedBatch dim⟩, "hash-" ++ toString dim, Shell.cacheSlot⟩

/-- Where no cache was saved the usual embedder is opened with the cache it has. -/
theorem openEmbedder_run (hdim : dim ≠ 0) (path : String) (h : s.read path = .error .missing) :
    (openEmbedder dim path).run s = (.ok (usualEmbedder dim), s) := by
  have hopen : CachedEmbedder.standard dim Shell.cacheSlot = .ok (usualEmbedder dim) := by
    rw [CachedEmbedder.standard, Hashed.embedder, if_neg hdim]
    rfl
  have hload : s.cache.load (usualEmbedder dim).id dim path (s.read path) = .ok (s.cache, 0) := by
    rw [h]
    rfl
  rw [openEmbedder, hopen]
  change (do
    let r ← ofFault (s.cache.load (usualEmbedder dim).id dim path (s.read path))
    modify fun s => { s with cache := r.1 }
    return usualEmbedder dim : Command (CachedEmbedder Shell)).run s = _
  rw [hload]
  rfl

theorem usualEmbedder_answers (h : dim ≤ Hashed.mostEntries) :
    (usualEmbedder dim).embedder.Answers (Ready dim) (ofDimension dim) :=
  CachedEmbedder.answers (Hashed.answers h _) (fun _ hs => hs.1) fun _ _ hs hc => ⟨hc, hs.2⟩

theorem usualEmbedder_refuses (h : Hashed.mostEntries < dim) {s : Shell} (hs : s.cache = {})
    {texts : List String} (htexts : texts ≠ []) :
    ((usualEmbedder dim).embedder.embedBatch texts).run s = (.error (.tooManyEntries dim), s) := by
  have hmissing : (usualEmbedder dim).missing s texts = texts := CachedEmbedder.missing_of_empty hs texts
  refine CachedEmbedder.embedBatch_run_of_refused (hmissing.symm ▸ htexts) ?_
  rw [hmissing]
  change (Hashed.embedBatch dim texts).run s = _
  rw [Hashed.embedBatch, if_pos ⟨h, htexts⟩]
  rfl

end Command

/-! ### The corpus -/

/-- The structures of the corpus and the stored vectors are those of the chunks. -/
structure Corpus.Indexes (c : Corpus) (stored : VectorStore) (chunks : List String) : Prop where
  valid : c.validate = .ok ()
  once : chunks.Nodup
  list : ∃ l, c.indices.indices.get? "list" = some (.list l) ∧ l.nodes = chunks
  vectors : ∃ m, c.indices.indices.get? "vector" = some (.vectors m) ∧
    ∀ v id, m.nodes.get? v = some id ↔ id = v ∧ v ∈ chunks
  engine : stored.entries.map (·.id) = chunks
  tree : ∃ f, c.indices.indices.get? "tree" = some (.tree f) ∧ f.leafIds = chunks
  keywords : ∃ t, c.indices.indices.get? "keyword" = some (.keywordTable t) ∧ ∀ id ∈ t.nodeIds, id ∈ chunks
  root : ∃ r, c.indices.indices.get? Command.rootIndex = some (.list r) ∧ c.Roots r ∧ r.nodes.Nodup

namespace Command

/-- The structures under the root, with the summaries that begin with what they are for. -/
def parts (chunks : List String) (table : Postings) (m : VectorMap) (f : Forest) (leads : String) :
    List Index := [
  .list { id := "list", summary := some ("Every chunk in reading order. " ++ leads), nodes := chunks },
  .keywordTable { id := "keyword", summary := some ("Chunks looked up by keyword. " ++ leads), table },
  .vectors { m with summary := some ("Chunks ranked by semantic similarity. " ++ leads) },
  .tree f]

/-- What the structures are built from: nodes, postings and a map of them, and a forest above them. -/
structure Parts (nodes : List Node) (table : Postings) (m : VectorMap) (g : Forest.Grove) : Prop where
  nodup : (nodes.map (·.id)).Nodup
  tabled : ∀ id ∈ table.nodeIds, id ∈ nodes.map (·.id)
  mapped : m.Maps "vector" nodes
  grown : Forest.Over "tree" nodes (nodes.foldl NodeStore.put {}) g
  unused : ∀ name, g.2.contains (standInId name) = false

namespace Parts
variable {nodes : List Node} {table : Postings} {m : VectorMap} {g : Forest.Grove}
  (h : Parts nodes table m g) (leads : String)
include h

theorem stored {x : String} (hx : x ∈ nodes.map (·.id)) : g.2.contains x = true :=
  h.grown.kept x ((NodeStore.contains_foldl_put h.nodup).mpr (.inl hx))

theorem rootable : Rootable rootIndex (parts (nodes.map (·.id)) table m g.1 leads) g.2 := by
  have hnames : (parts (nodes.map (·.id)) table m g.1 leads).map (·.id) =
      ["list", "keyword", "vector", "tree"] := by
    simp [parts, Index.id, h.mapped.header.1, h.grown.id_eq]
  have hfiled := h.mapped.filed h.nodup
  have hmap (summary : Option String) : ({ m with summary } : VectorMap).Filed :=
    ⟨hfiled.mapped, hfiled.single⟩
  refine ⟨by rw [hnames]; decide, by rw [hnames]; decide, ?_, h.unused, ?_, ?_⟩
  all_goals simp only [parts, List.forall_mem_cons]
  · exact ⟨rfl, rfl, rfl, h.grown.summarized, by simp⟩
  · exact ⟨rfl, rfl, (hmap _).validate, h.grown.wellFormed.validate, by simp⟩
  · refine ⟨fun x hx => h.stored hx, fun x hx => h.stored (h.tabled x (SortedSet.mem_elems.mp hx)),
      fun x hx => ?_, fun x hx => h.grown.stored x (h.grown.wellFormed.mem_nodeIds.mp hx), by simp⟩
    obtain ⟨v, hv⟩ := SortedMap.mem_values.mp hx
    obtain ⟨rfl, hv⟩ := (h.mapped.nodes_iff v x).mp hv
    exact h.stored hv

theorem indexes {stored : VectorStore} (hstored : stored.entries.map (·.id) = nodes.map (·.id)) :
    (Corpus.underRoot rootIndex (parts (nodes.map (·.id)) table m g.1 leads) g.2).Indexes stored
      (nodes.map (·.id)) := by
  have hroot := h.rootable leads
  have hpart (key : String) (i : Index) (hi : i ∈ parts (nodes.map (·.id)) table m g.1 leads)
      (hid : i.id = key) :=
    hroot.get?_underRoot.mpr (.inl ⟨hi, hid⟩)
  refine ⟨hroot.valid_underRoot, h.nodup, ⟨_, hpart "list" (.list _) (.head _) rfl, rfl⟩,
    ⟨_, hpart "vector" (.vectors _) (.tail _ (.tail _ (.head _))) h.mapped.header.1, h.mapped.nodes_iff⟩,
    hstored,
    ⟨g.1, hpart "tree" (.tree g.1) (.tail _ (.tail _ (.tail _ (.head _)))) h.grown.id_eq, h.grown.leafIds⟩,
    ⟨_, hpart "keyword" (.keywordTable _) (.tail _ (.head _)) rfl, fun id hid => ?_⟩,
    ⟨_, hroot.get?_underRoot.mpr (.inr ⟨rfl, rfl⟩), hroot.roots_underRoot, ?_⟩⟩
  · exact h.tabled id (SortedSet.mem_elems.mp hid)
  · rw [hroot.rootOver_eq]
    exact hroot.nodup.map fun _ _ => standInId_injective

end Parts

/-! ### Building it -/

variable {settings : Settings} {documents : List Document} {chunks : List Node} {e : CachedEmbedder Shell}

/-- Chunks that can be indexed together: they are new, and no summary and no node that stands for an index
has one of their ids. -/
structure Indexable (chunks : List Node) : Prop where
  nonempty : chunks ≠ []
  nodup : (chunks.map (·.id)).Nodup
  unembedded : ∀ n ∈ chunks, n.embedding = none
  unsummarized : ∀ x ∈ chunks.map (·.id), ∀ k, x ≠ Forest.summaryId "tree" k
  distinct : ∀ x ∈ chunks.map (·.id), ∀ index, x ≠ standInId index
  few : chunks.length ≤ 2 ^ 62

/-- The forest over indexable chunks is built, whatever state other parts are in. -/
theorem Indexable.build_gives {σ : Type} {nodes : List Node} (h : Indexable chunks)
    (hids : nodes.map (·.id) = chunks.map (·.id)) {width : Nat} (hwidth : 2 ≤ width) :
    Gives (Forest.build (σ := σ) Summarizer.leads width "tree" nodes (nodes.foldl NodeStore.put {}))
      fun g => Forest.Over "tree" nodes (nodes.foldl NodeStore.put {}) g ∧
        ∀ index, g.2.contains (standInId index) = false := by
  have hnodup : (nodes.map (·.id)).Nodup := hids ▸ h.nodup
  have hstored (x : String) : (nodes.foldl NodeStore.put {}).contains x = true ↔ x ∈ chunks.map (·.id) := by
    rw [NodeStore.contains_foldl_put hnodup, hids]
    exact or_iff_left Bool.false_ne_true
  have hlength : nodes.length = chunks.length := by simpa using congrArg List.length hids
  have hne : nodes ≠ [] := List.length_pos_iff.mp (hlength ▸ List.length_pos_iff.mpr h.nonempty)
  have hfew := h.few
  refine (Forest.build_gives (fun _ => Gives.pure trivial) h.unsummarized hwidth hne hids.symm h.nodup
    (fun n hn => (hstored n.id).mpr (hids ▸ List.mem_map_of_mem hn)) (fun k => ?_)
    (by simp only [List.length_map, Decimal.maxWord]; omega)).imp fun g hg => ⟨hg, fun index => ?_⟩
  · rw [← Bool.not_eq_true, hstored]
    exact fun hin => h.unsummarized _ hin k rfl
  · rw [← Bool.not_eq_true]
    intro hin
    rcases hg.added _ hin with hin | ⟨k, hk⟩
    · exact h.distinct _ ((hstored _).mp hin) index rfl
    · exact summaryId_ne_standInId "tree" k index hk.symm

/-- Where the chunks were inserted and the forest over them can be built, the other steps do not fail. -/
theorem buildCorpus_run_of_parts {nodes : List Node} {m : VectorMap} {g : Forest.Grove} {s' : Shell}
    {ids : List String} (hinsert : (VectorMap.insert e.embedder (some (VectorStore.engine Shell.vectorSlot))
      settings.index.embedBatchSize { id := "vector" } chunks).run
        { s with vectors := { dimension := settings.index.embedDim } } = (⟨m, nodes, .ok ids⟩, s'))
    (hparts : Parts nodes (KeywordTable.ofBatch
      (Keywords.frequent · settings.index.maxKeywordsPerChunk) "keyword" nodes).table m g)
    (htree : (Forest.build Summarizer.leads settings.index.numChildren "tree" nodes
      (nodes.foldl NodeStore.put {})).run s' = (.ok g, s')) :
    (buildCorpus settings e documents chunks).run s = (.ok (Corpus.underRoot rootIndex
      (parts (nodes.map (·.id)) (KeywordTable.ofBatch (Keywords.frequent · settings.index.maxKeywordsPerChunk)
        "keyword" nodes).table m g.1 (Text.leads (documents.map (·.text)))) g.2), s') := by
  let keywords (text : String) := Keywords.frequent text settings.index.maxKeywordsPerChunk
  let table := (KeywordTable.ofBatch keywords "keyword" nodes).table
  have hstore : ({} : NodeStore).add nodes false = .ok (nodes.foldl NodeStore.put {}) :=
    NodeStore.add_of_fresh hparts.nodup fun _ _ => rfl
  have hkeyword : (KeywordTable.build Keywords.frequentExtractor settings.index.maxKeywordsPerChunk "keyword"
      nodes).run s' = (.ok { id := "keyword", table }, s') := by
    rw [KeywordTable.build_frequent, (KeywordTable.ofBatch_tabulates keywords "keyword" nodes).1]
    rfl
  have hlist : (nodes.map (·.id)).foldl NodeList.add { id := "list" } =
      { id := "list", nodes := nodes.map (·.id) } := by
    rw [List.foldl_map]
    exact NodeList.ofBatch_eq "list" hparts.nodup
  have hroot := hparts.rootable (Text.leads (documents.map (·.text)))
  unfold buildCorpus
  rw [run_modify_bind, run_lift_bind, hinsert]
  dsimp only
  rw [ofExcept_ok, pure_bind, hstore, ofExcept_ok, pure_bind, run_ofAction_bind hkeyword,
    run_ofAction_bind htree, hlist]
  -- the four structures as they are now are the parts that can be put under the root
  change (do
    let standing ← ofExcept (standIns
      (parts (nodes.map (·.id)) table m g.1 (Text.leads (documents.map (·.text)))))
    let store ← ofExcept (g.2.add standing false)
    let indices ← ofExcept ((parts (nodes.map (·.id)) table m g.1 (Text.leads (documents.map (·.text))) ++
      [Index.list ((standing.map (·.id)).foldl NodeList.add { id := rootIndex })]).foldlM IndexStore.add {})
    return ⟨store, indices⟩ : Command Corpus).run s' = _
  rw [standIns_of_summarized hroot.summarized, ofExcept_ok, pure_bind, hroot.add_standIns, ofExcept_ok,
    pure_bind, List.foldl_map]
  have hindices := hroot.add_structures
  rw [rootOver, NodeList.ofBatch] at hindices
  rw [hindices]
  rfl

/-- No step fails over indexable chunks, and what is built are the structures of the chunks. -/
theorem buildCorpus_run (documents : List Document) (h : Indexable chunks)
    (hwidth : 2 ≤ settings.index.numChildren)
    (he : e.embedder.Answers (Ready settings.index.embedDim) (ofDimension settings.index.embedDim))
    (hs : s.cache.Sized settings.index.embedDim) :
    ∃ corpus s', (buildCorpus settings e documents chunks).run s = (.ok corpus, s') ∧
      corpus.Indexes s'.vectors (chunks.map (·.id)) := by
  obtain ⟨m, nodes, s₁, hinsert, _, hids, hm⟩ := VectorMap.insert_new Shell.vectorSlot he
    (fun _ hr => hr.2) h.nodup h.unembedded settings.index.embedBatchSize "vector"
    (s := { s with vectors := { dimension := settings.index.embedDim } }) ⟨hs, rfl⟩
  obtain ⟨g, htree, hgrown, hunused⟩ := h.build_gives hids hwidth (Shell.vectorSlot.set
    { dimension := settings.index.embedDim, entries := nodes.map VectorMap.entryOf } s₁)
  let keywords (text : String) := Keywords.frequent text settings.index.maxKeywordsPerChunk
  have htable := (KeywordTable.ofBatch_tabulates keywords "keyword" nodes).2
  have hparts : Parts nodes (KeywordTable.ofBatch keywords "keyword" nodes).table m g := by
    refine ⟨hids ▸ h.nodup, fun x hx => ?_, hm, hgrown, hunused⟩
    obtain ⟨_, n, hn, rfl, _⟩ := htable.mem_nodeIds.mp hx
    exact List.mem_map_of_mem hn
  refine ⟨_, _, buildCorpus_run_of_parts hinsert hparts htree, ?_⟩
  rw [← hids]
  exact hparts.indexes _ (VectorMap.map_id_entryOf nodes)

theorem settings_of_validate (valid : settings.validate = .ok ()) :
    (∃ chunker, Chunker.ofSettings settings.chunking = .ok chunker) ∧ 2 ≤ settings.index.numChildren ∧
      settings.index.embedDim ≠ 0 := by
  have hnone : settings.refusal? = none := by
    unfold Settings.validate at valid
    split at valid
    · cases valid
    next h => exact h
  unfold Settings.refusal? at hnone
  split_ifs at hnone with htokens hoverlap hchildren hdimension
  exact ⟨⟨_, by rw [Chunker.ofSettings, if_neg htokens, if_neg hoverlap]⟩, by omega, hdimension⟩

/-- Chunks of text files with different names can be indexed. -/
theorem indexable_nodesOfAll {chunker : Chunker} (named : ∀ d ∈ documents, IsTextFile d.id)
    (distinct : (documents.map (·.id)).Nodup) (inked : ∃ d ∈ documents, Text.Inked d.text.toList)
    (few : (chunker.nodesOfAll documents).length ≤ 2 ^ 62) : Indexable (chunker.nodesOfAll documents) := by
  refine ⟨chunker.nodesOfAll_ne_nil inked, ?_, fun n => chunker.nodesOfAll_unembedded, fun x hx k => ?_,
    fun x hx index => ?_, few⟩
  · rw [chunker.nodesOfAll_ids]
    exact chunker.nodup_chunkIds distinct
  all_goals
    rw [chunker.nodesOfAll_ids] at hx
    obtain ⟨d, hd, i, rfl⟩ := chunker.mem_chunkIds hx
  · exact (named d hd).chunkId_ne_summaryId i "tree" k
  · exact chunkId_ne_standInId d.id i index

/-- Where no cache was saved, the indices over the chunks of text files are built without a failure: settings
only have to be valid, vectors of their dimension have to exist, and positions have to suffice for four times
as many nodes as there are chunks. -/
theorem buildCorpus_indexes_every_chunk (settings : Settings) (documents : List Document) (s : Shell)
    (cachePath : String) (valid : settings.validate = .ok ()) (named : ∀ d ∈ documents, IsTextFile d.id)
    (distinct : (documents.map (·.id)).Nodup) (inked : ∃ d ∈ documents, Text.Inked d.text.toList)
    (dimension : settings.index.embedDim ≤ Hashed.mostEntries)
    (few : ∀ chunker, Chunker.ofSettings settings.chunking = .ok chunker →
      (chunker.nodesOfAll documents).length ≤ 2 ^ 62)
    (empty : s.cache = {}) (unsaved : s.read cachePath = .error .missing) :
    ∃ chunker corpus s', Chunker.ofSettings settings.chunking = .ok chunker ∧
      (do
        let e ← openEmbedder settings.index.embedDim cachePath
        buildCorpus settings e documents (chunker.nodesOfAll documents)).run s = (.ok corpus, s') ∧
      corpus.Indexes s'.vectors ((chunker.nodesOfAll documents).map (·.id)) := by
  obtain ⟨⟨chunker, hchunker⟩, hwidth, hdim⟩ := settings_of_validate valid
  have hchunks := indexable_nodesOfAll named distinct inked (few chunker hchunker)
  have hsized : s.cache.Sized settings.index.embedDim := empty ▸ EmbeddingCache.sized_empty _
  obtain ⟨corpus, s', hrun, hindexes⟩ := buildCorpus_run documents hchunks hwidth
    (usualEmbedder_answers dimension) hsized
  refine ⟨chunker, corpus, s', hchunker, ?_, hindexes⟩
  rw [run_bind, openEmbedder_run hdim cachePath unsaved]
  exact hrun

/-- A note of two sentences, a text file without a word, and another note. -/
def notes : List Document := [
  { id := "notes/a.txt", text := "First sentence. Second sentence.", metadata := ∅ },
  { id := "b.txt", text := " \n", metadata := ∅ },
  { id := "c.txt", text := "Another note.", metadata := ∅ }]

/-- A shell over an empty tree of files. -/
def bareShell : Shell := { files := {}, cwd := [], env := ∅ }

/-- Chunks of two words, and two siblings at most. -/
def smallSettings : Settings :=
  { chunking := { maxTokens := 3 }, index := { numChildren := 2, embedDim := 4, embedBatchSize := 3 } }

theorem isTextFile_notes : ∀ d ∈ notes, IsTextFile d.id := by
  simp only [notes, List.forall_mem_cons]
  exact ⟨⟨"notes/a", rfl⟩, ⟨"b", rfl⟩, ⟨"c", rfl⟩, by simp⟩

theorem inked_notes : ∃ d ∈ notes, Text.Inked d.text.toList :=
  ⟨_, .head _, 'F', by decide, by decide⟩

theorem nodesOfAll_notes (chunker : Chunker) (h : Chunker.ofSettings smallSettings.chunking = .ok chunker) :
    (chunker.nodesOfAll notes).map (·.id) = ["notes/a.txt:0", "notes/a.txt:1", "c.txt:0"] := by
  have hall : ((Chunker.ofSettings smallSettings.chunking).toOption.map fun c =>
      (c.nodesOfAll notes).map (·.id)) = some ["notes/a.txt:0", "notes/a.txt:1", "c.txt:0"] := by
    decide +kernel
  rw [h] at hall
  exact Option.some.inj hall

/-- The three chunks come under two summaries. -/
theorem buildCorpus_indexes_every_chunk_notes : smallSettings.validate = .ok () ∧
    bareShell.read "storage/embedding_cache.json" = .error .missing ∧
    ∃ chunker corpus s', Chunker.ofSettings smallSettings.chunking = .ok chunker ∧
      (do
        let e ← openEmbedder 4 "storage/embedding_cache.json"
        buildCorpus smallSettings e notes (chunker.nodesOfAll notes)).run bareShell = (.ok corpus, s') ∧
      corpus.Indexes s'.vectors ["notes/a.txt:0", "notes/a.txt:1", "c.txt:0"] ∧
      ["tree:summary:3", "tree:summary:4"].all corpus.store.contains = true := by
  have hvalid : smallSettings.validate = .ok () := by decide +kernel
  have hunsaved : bareShell.read "storage/embedding_cache.json" = .error .missing := by decide +kernel
  have hfew (chunker : Chunker) (h : Chunker.ofSettings smallSettings.chunking = .ok chunker) :
      (chunker.nodesOfAll notes).length ≤ 2 ^ 62 := by
    have hlength := congrArg List.length (nodesOfAll_notes chunker h)
    rw [List.length_map] at hlength
    rw [hlength]
    decide
  obtain ⟨chunker, corpus, s', hchunker, hrun, hindexes⟩ := buildCorpus_indexes_every_chunk smallSettings
    notes bareShell "storage/embedding_cache.json" hvalid isTextFile_notes (by decide) inked_notes (by decide)
    hfew rfl hunsaved
  have hsummaries : (Chunker.ofSettings smallSettings.chunking).toOption.bind (fun chunker =>
      ((do
        let e ← openEmbedder 4 "storage/embedding_cache.json"
        buildCorpus smallSettings e notes (chunker.nodesOfAll notes)).run bareShell).1.toOption.map
          fun (c : Corpus) => ["tree:summary:3", "tree:summary:4"].all c.store.contains) = some true := by
    decide +kernel
  rw [hchunker, Except.toOption, Option.bind_some] at hsummaries
  refine ⟨hvalid, hunsaved, chunker, corpus, s', hchunker, hrun, ?_, ?_⟩
  · exact nodesOfAll_notes chunker hchunker ▸ hindexes
  · rw [show smallSettings.index.embedDim = 4 from rfl] at hrun
    rw [hrun] at hsummaries
    exact Option.some.inj hsummaries

/-! ### Vectors that cannot be made -/

/-- Nodes are not inserted if the first call of the embedder fails. -/
theorem insert_refused {σ : Type} {e : Embedder σ} {fault : Fault} {nodes : List Node} {s : σ}
    (h : ∀ texts, texts ≠ [] → (e.embedBatch texts).run s = (.error fault, s))
    (hmissing : nodes.filter (·.embedding.isNone) ≠ []) (engine : Option (VectorEngine σ)) (batchSize : Nat)
    (id : String) : ((VectorMap.insert e engine batchSize { id } nodes).run s).1.result =
      .error (.external (.fault fault)) := by
  obtain ⟨batch, batches, hgroups⟩ : ∃ batch batches,
      groups (max batchSize 1) (nodes.filter (·.embedding.isNone)) = batch :: batches := by
    refine List.exists_cons_of_ne_nil fun hnil => hmissing ?_
    rw [← flatten_groups (max batchSize 1) (nodes.filter (·.embedding.isNone)), hnil, List.flatten_nil]
  have hcall : StateT.run (e.embedBatch (batch.map (·.text))).external.run s =
      (.error (.external (.fault fault)), s) := by
    have hbatch : batch ≠ [] := ne_nil_of_mem_groups (hgroups ▸ List.mem_cons_self)
    exact (external_run _ s).trans (by rw [h _ (by simpa using hbatch)])
  have hbatch : (VectorMap.embedBatch e batch).run s = ((batch, .error (.external (.fault fault))), s) := by
    rw [VectorMap.embedBatch, runState_bind, hcall]
    rfl
  have hembed : ∃ done, (VectorMap.embedMissing e batchSize nodes).run s =
      ((done, .error (.external (.fault fault))), s) := by
    refine ⟨VectorMap.putBack nodes (batch ++ batches.flatten), ?_⟩
    rw [VectorMap.embedMissing]
    dsimp only
    rw [hgroups, runState_bind, VectorMap.embedBatches, runState_bind, hbatch]
    rfl
  obtain ⟨done, hembed⟩ := hembed
  have hinside : (!({ id } : VectorMap).backend.inProcess && engine.isNone) = false := rfl
  rw [VectorMap.insert]
  simp only [hinside, Bool.false_eq_true, if_false]
  rw [runState_bind, hembed]
  rfl

/-- Beyond a dimension there are no vectors, and nothing is indexed with settings that ask for it. -/
theorem buildCorpus_refused (settings : Settings) (documents : List Document) {cachePath : String}
    (hdim : Hashed.mostEntries < settings.index.embedDim) (hne : chunks ≠ [])
    (hnone : ∀ n ∈ chunks, n.embedding = none) (empty : s.cache = {})
    (unsaved : s.read cachePath = .error .missing) :
    ((do
      let e ← openEmbedder settings.index.embedDim cachePath
      buildCorpus settings e documents chunks).run s).1 =
        .error (.failure (.external (.fault (.tooManyEntries settings.index.embedDim)))) := by
  have hmissing : chunks.filter (·.embedding.isNone) ≠ [] := by
    rw [List.filter_eq_self.mpr fun n hn => by rw [hnone n hn]; rfl]
    exact hne
  let s₀ : Shell := { s with vectors := { dimension := settings.index.embedDim } }
  have hinsert := insert_refused (fun _ htexts => usualEmbedder_refuses hdim (s := s₀) empty htexts) hmissing
    (some (VectorStore.engine Shell.vectorSlot)) settings.index.embedBatchSize "vector"
  rw [run_bind, openEmbedder_run (by omega) cachePath unsaved]
  dsimp only
  unfold buildCorpus
  rw [run_modify_bind, run_lift_bind, hinsert]
  rfl

/-- Valid settings that ask for vectors of one entry too many. -/
def wideSettings : Settings := { index := { embedDim := Hashed.mostEntries + 1 } }

/-- Valid settings, new text files with a word in them and no saved cache are not enough. -/
theorem buildCorpus_refuses_wideSettings : wideSettings.validate = .ok () ∧ (∀ d ∈ notes, IsTextFile d.id) ∧
    (notes.map (·.id)).Nodup ∧ (∃ d ∈ notes, Text.Inked d.text.toList) ∧ bareShell.cache = {} ∧
    bareShell.read "storage/embedding_cache.json" = .error .missing ∧
    ∃ chunker, Chunker.ofSettings wideSettings.chunking = .ok chunker ∧
      ((do
        let e ← openEmbedder wideSettings.index.embedDim "storage/embedding_cache.json"
        buildCorpus wideSettings e notes (chunker.nodesOfAll notes)).run bareShell).1 =
          .error (.failure (.external (.fault (.tooManyEntries (Hashed.mostEntries + 1))))) := by
  have hvalid : wideSettings.validate = .ok () := by decide +kernel
  have hunsaved : bareShell.read "storage/embedding_cache.json" = .error .missing := by decide +kernel
  obtain ⟨⟨chunker, hchunker⟩, _, _⟩ := settings_of_validate hvalid
  refine ⟨hvalid, isTextFile_notes, by decide, inked_notes, rfl, hunsaved, chunker, hchunker, ?_⟩
  exact buildCorpus_refused wideSettings notes (by decide) (chunker.nodesOfAll_ne_nil inked_notes)
    (fun _ => chunker.nodesOfAll_unembedded) rfl hunsaved

end Command

end CorpusIndex
