import CorpusIndex.Corpus
import CorpusIndex.Proofs.Answers.Descent
import CorpusIndex.Proofs.Answers.Keywords
import CorpusIndex.Proofs.Corpus.Stranded
import CorpusIndex.Proofs.Vectors.Retrieval

/-!
# When a checked corpus answers without reporting corruption

The check of a corpus covers every id its structures refer to, but not every id a search can reach: a
forest may name roots that are not its nodes, and a vector map may hold embeddings of vectors it does not
map. `Answerable` excludes both, and nothing less will do (`answers_without_corruption_iff`).
-/
namespace CorpusIndex

variable {σ α β : Type} {store : NodeStore} {id : String}

/-! ### Postings -/

namespace KeywordTable
variable {t : KeywordTable}

theorem mem_nodeIds_of_ranked {keywords : List String} {most : Nat} {x : String × Nat}
    (h : x ∈ t.ranked keywords most) : x.1 ∈ t.nodeIds :=
  SortedSet.mem_elems.mpr (mem_nodeIds_of_ranking (List.mem_of_mem_take h))

theorem retrieve_spares (stored : ∀ id ∈ t.nodeIds, store.contains id = true)
    (x : KeywordExtractor σ) (limits : KeywordLimits) (q : Query) :
    Spares (t.retrieve store x limits q) := by
  unfold retrieve
  split
  · exact Spares.pure _
  · refine Spares.bind (Spares.bind (Spares.external _) fun _ => Spares.pure _) fun keywords => ?_
    refine Ends.bind (Ends.mapM (Q := fun _ => True) fun r hr => ?_) fun hits _ => Spares.pure _
    obtain ⟨n, hn⟩ := NodeStore.contains_iff.mp (stored r.1 (mem_nodeIds_of_ranked hr))
    exact Spares.bind_ok (NodeStore.resolve_eq_ok.mpr hn) (Spares.pure _)

end KeywordTable

namespace RelationGraph
variable {g : RelationGraph}

theorem lookup_direct (g : RelationGraph) (keyword : String) :
    ∃ ids, g.lookup keyword 1 = .ok ids ∧ ∀ id ∈ ids, id ∈ g.nodeIds := by
  unfold lookup
  split
  · refine ⟨_, rfl, fun id hid => ?_⟩
    obtain ⟨k, _, hid⟩ := List.mem_flatMap.mp (List.mem_eraseDups.mp hid)
    exact SortedSet.mem_elems.mpr (Postings.mem_nodeIds_of_under hid)
  · exact ⟨[], rfl, by simp⟩

theorem retrieve_spares (k : store.Keyed) (stored : ∀ id ∈ g.nodeIds, store.contains id = true)
    (x : KeywordExtractor σ) (limits : KeywordLimits) (q : Query) :
    Spares (g.retrieve store x limits q) := by
  unfold retrieve retrieveWithFacts
  refine Spares.bind ?_ fun _ => Spares.pure _
  split
  · exact Spares.pure _
  · refine Spares.bind (Spares.external _) fun keywords => ?_
    have hlookup (keyword : String) : Ends (liftM (g.lookup keyword 1) : Action σ (List String))
        (fun ids => ∀ id ∈ ids, id ∈ g.nodeIds) NotCorrupt := by
      obtain ⟨ids, hids, hmem⟩ := g.lookup_direct keyword
      rw [hids]
      exact Ends.pure hmem
    refine Ends.bind (Ends.mapM fun keyword _ => hlookup keyword) fun found hfound => ?_
    have hids : ∀ id ∈ found.flatten.eraseDups.take limits.nodes, store.contains id = true := by
      intro id hid
      obtain ⟨ids, hids, hid⟩ := List.mem_flatten.mp (List.mem_eraseDups.mp (List.mem_of_mem_take hid))
      exact stored id (hfound ids hids id hid)
    obtain ⟨nodes, hnodes, _⟩ := NodeStore.resolveAll_of_keyed k hids
    exact Spares.bind_ok hnodes (Spares.pure _)

end RelationGraph

/-! ### Lists and vector maps -/

theorem NodeList.retrieve_spares {l : NodeList} (k : store.Keyed)
    (stored : ∀ id ∈ l.nodes, store.contains id = true) (ranking : Option (Embedder σ × Nat))
    (filter : WordFilter) (q : Query) : Spares (l.retrieve store ranking filter q) := by
  obtain ⟨nodes, hnodes, _⟩ := NodeStore.resolveAll_of_keyed k stored
  have hcandidates : l.candidates store filter =
      .ok (nodes.filter fun n => filter.accepts n.text) := by
    rw [candidates, hnodes]
    rfl
  unfold retrieve
  split
  · exact Spares.pure _
  · refine Spares.bind_ok hcandidates ?_
    split
    next => exact Spares.pure _
    next e most =>
      refine Spares.bind (q.embed_spares e) fun v => ?_
      exact Spares.bind (e.embedNodes_spares _) fun _ => Spares.pure _

namespace VectorMap
variable {m : VectorMap} {e : Embedder σ} {most : Nat} {q : Query}

/-- Every vector that is kept is mapped to a node. -/
def KeptMapped (m : VectorMap) : Prop := ∀ x ∈ m.embeddings, ∃ id, m.nodes.get? x.1 = some id

/-- The search in the map itself finds vectors that it keeps. -/
theorem search_kept (store : NodeStore) (most : Nat) (v : Embedding) :
    Ends (m.search store none most none v : Action σ _)
      (fun found => m.backend.inProcess = true ∧ ∀ x ∈ found, x.1 ∈ m.embeddings.map (·.1)) NotCorrupt := by
  have hengine : NotCorrupt (.invalid (.engineNeeded m.id m.backend.name)) := fun what h => by cases h
  unfold search
  dsimp only
  split
  next hin => exact Ends.pure ⟨hin, fun x hx => mem_nearest hx⟩
  next => exact Ends.throw hengine

theorem retrieve_spares (stored : ∀ id ∈ m.nodeIds, store.contains id = true)
    (mapped : m.isEmpty = false → m.backend.inProcess = true → m.KeptMapped) (e : Embedder σ)
    (most : Nat) (q : Query) : Spares (m.retrieve store e none most none q) := by
  unfold retrieve
  split
  next => exact Spares.pure _
  next hfull =>
    refine Spares.bind (q.embed_spares e) fun v => ?_
    refine Ends.bind (search_kept store most v) fun found hfound => Ends.foldlM (fun out x hx => ?_) _
    obtain ⟨y, hy, heq⟩ := List.mem_map.mp (hfound.2 x hx)
    obtain ⟨id, hid⟩ := mapped (by simpa using hfull) hfound.1 y hy
    obtain ⟨n, hn⟩ := NodeStore.contains_iff.mp (stored id (SortedMap.mem_values.mpr ⟨y.1, hid⟩))
    have hnode : m.nodeOf x.1 = .ok id := by simp only [nodeOf, ← heq, hid]
    exact Spares.bind_ok hnode (Spares.bind_ok (NodeStore.resolve_eq_ok.mpr hn) (Spares.pure _))

end VectorMap

/-! ### Structures -/

namespace Index

/-- What a search in the structure relies on beyond what its check says. -/
def Answerable (store : NodeStore) : Index → Prop
  | .tree f => f.isEmpty = false → f.RootsStored store
  | .vectors m => m.isEmpty = false → m.backend.inProcess = true → m.KeptMapped
  | _ => True

end Index

namespace SearchContext
variable {c : SearchContext σ} {i : Index} {r : Retriever σ}

theorem traversal_spares {tree : String} {t : Forest.Traversal σ} (h : c.traversal tree = .ok t) :
    t.Spares := by
  unfold traversal at h
  split at h
  · split at h
    next model _ => cases h; exact Selector.forQuery_spares model
    next => cases h
  · cases h; exact Selector.byEmbedding_spares c.embedder
  · cases h; trivial
  · cases h; trivial

/-- A search in an answerable structure that checks out never reports corruption, whatever fails. -/
theorem retriever_spares (k : c.store.Keyed) (valid : i.validate c.store = .ok ())
    (ha : i.Answerable c.store) (hengine : c.engine = none) (hr : c.retriever i = .ok r) (q : Query) :
    Spares (r q) := by
  obtain ⟨_, hstructure, _⟩ := bind_eq_ok.mp valid
  have stored : i.Resolves c.store := (Index.validate_iff hstructure).mp valid
  cases i with
  | tree f =>
      obtain ⟨t, ht, hr⟩ := bind_eq_ok.mp hr
      cases hr
      exact Forest.retrieve_spares (Forest.checked_of_validate hstructure) k stored ha
        (traversal_spares ht) _ q
  | keywordTable t => cases hr; exact KeywordTable.retrieve_spares stored _ _ q
  | list l => cases hr; exact NodeList.retrieve_spares k stored _ _ q
  | vectors m =>
      cases hr
      rw [hengine]
      exact VectorMap.retrieve_spares stored ha _ _ q
  | relations g => cases hr; exact RelationGraph.retrieve_spares k stored _ _ q

end SearchContext

/-! ### What is not answerable -/

/-- The failure says that the corpus is corrupt. -/
def Corrupt (e : Failure) : Prop := ∃ what, e = .corrupt what

/-- The action always reports a corrupt corpus. -/
def Reports (a : Action σ α) : Prop := Ends a (fun _ => False) Corrupt

namespace Reports

theorem error {x : Except Failure α} {e : Failure} {f : α → Action σ β} (hx : x = .error e)
    (he : Corrupt e) : Reports ((liftM x : Action σ α) >>= f) := by
  subst hx
  exact fun _ => he

/-- Every run ends in the report. -/
theorem run {a : Action σ α} (h : Reports a) (s : σ) : ∃ what, (a.run s).1 = .error (.corrupt what) := by
  have hs := h s
  rcases hr : a.run s with ⟨r, s'⟩
  rw [hr] at hs
  cases r with
  | ok x => exact hs.elim
  | error e =>
      obtain ⟨what, rfl⟩ := hs
      exact ⟨what, rfl⟩

end Reports

theorem NodeStore.resolve_corrupt {e : Failure} (h : store.resolve id = .error e) : Corrupt e := by
  unfold resolve at h
  split at h
  next => cases h
  next => cases h; exact ⟨_, rfl⟩

theorem NodeStore.resolveAll_corrupt {ids : List String} (hid : id ∈ ids)
    (hmiss : store.contains id = false) : ∃ e, store.resolveAll ids = .error e ∧ Corrupt e := by
  have hnone : store.nodes.get? id = none := by simpa [contains, SortedMap.contains] using hmiss
  have hresolve : store.resolve id = .error (.corrupt (.danglingNode id)) := by simp only [resolve, hnone]
  exact mapM_error hid hresolve fun _ _ => resolve_corrupt

namespace Forest
variable {f : Forest}

/-- Roots that are not stored are reported where the roots are asked for. -/
theorem retrieve_roots_reports {p : Nat} (hp : f.roots.get? p = some id)
    (hmiss : store.contains id = false) (hfull : f.isEmpty = false) (q : Query) :
    Reports (f.retrieve store (.roots : Traversal σ) {} q) := by
  obtain ⟨e, he, hcorrupt⟩ := NodeStore.resolveAll_corrupt (SortedMap.mem_values.mpr ⟨p, hp⟩) hmiss
  have hhits : hitsOf store f.roots.values = .error e := by rw [hitsOf, he]; rfl
  simp only [retrieve, hfull]
  exact Reports.error hhits hcorrupt

/-- A root without a node is reported where a descent starts. -/
theorem retrieve_descent_reports {p : Nat} (hp : f.IsRoot p) (hfree : ¬ f.Occupied p)
    (hfull : f.isEmpty = false) (s : Selector σ) (q : Query) :
    Reports (f.retrieve store (.descent s) {} q) := by
  have hnone : f.nodes.get? p = none := Option.eq_none_iff_forall_ne_some.mpr fun x hx => hfree ⟨x, hx⟩
  have hin : p ∈ SortedSet.elems (f.roots.mapValues fun _ _ => ()) :=
    SortedSet.mem_elems.mpr (SortedSet.mem_mapValues.mpr (isRoot_iff_contains.mp hp))
  obtain ⟨e, he, hcorrupt⟩ : ∃ e, f.childrenOf none = .error e ∧ Corrupt e := by
    refine mapM_error (e := .corrupt (.childPosition p f.id)) hin (by simp only [hnone]) fun q e h => ?_
    split at h
    next => cases h
    next => cases h; exact ⟨_, rfl⟩
  simp only [retrieve, hfull]
  exact Reports.error he hcorrupt

end Forest

/-- Everything is near where nothing is cut off. -/
theorem mem_nearest_all (query : Embedding) {candidates : List (α × Embedding)} {x : α × Embedding}
    (h : x ∈ candidates) :
    ∃ y ∈ nearest query candidates candidates.length none, y.1 = x.1 := by
  refine ⟨(x.1, cosine query x.2), ?_, rfl⟩
  have hlen : candidates.length =
      (byScore (candidates.map fun c => (c.1, cosine query c.2))).length := by
    rw [byScore, List.length_mergeSort, List.length_map]
  simp only [nearest, Option.all_none, List.filter_true]
  rw [hlen, List.take_length]
  exact List.mem_mergeSort.mpr (List.mem_map.mpr ⟨x, h, rfl⟩)

namespace VectorMap
variable {m : VectorMap}

/-- A kept vector without a node is reported by a search for as many vectors as are kept. -/
theorem retrieve_reports (stored : ∀ id ∈ m.nodeIds, store.contains id = true)
    {x : String × Embedding} (hx : x ∈ m.embeddings)
    (hfree : m.nodes.get? x.1 = none) (hfull : m.isEmpty = false)
    (hbackend : m.backend.inProcess = true) (e : Embedder σ) {q : Query} {v : Embedding}
    (hq : q.embedding = some v) :
    Reports (m.retrieve store e none m.embeddings.length none q) := by
  obtain ⟨y, hy, heq⟩ := mem_nearest_all v hx
  have hfail (z : String × Float32) (hz : m.nodes.get? z.1 = none) (f : String → Action σ Retrieval) :
      Reports ((liftM (m.nodeOf z.1) : Action σ String) >>= f) :=
    Reports.error (by simp only [nodeOf, hz]) ⟨.unmappedVector z.1 m.id, rfl⟩
  have hsearch : (m.search store none m.embeddings.length none v : Action σ _) =
      pure (nearest v m.embeddings m.embeddings.length none) := by
    simp only [search, hbackend, passing]
    rfl
  simp only [retrieve, hfull, Query.embed, hq, hsearch, pure_bind]
  refine Ends.foldlM_fails (E := Corrupt) hy (fun out z _ => ?_) (fun out => ?_) _
  · cases hz : m.nodes.get? z.1 with
    | none => exact (hfail z hz _).imp (fun _ h => h.elim) fun _ h => h
    | some id =>
        have hnode : m.nodeOf z.1 = .ok id := by simp only [nodeOf, hz]
        obtain ⟨n, hn⟩ := NodeStore.contains_iff.mp (stored id (SortedMap.mem_values.mpr ⟨z.1, hz⟩))
        exact Ends.bind_ok hnode (Ends.bind_ok (NodeStore.resolve_eq_ok.mpr hn) (Ends.pure trivial))
  · exact hfail y (heq ▸ hfree) _

end VectorMap

/-! ### Checked corpora -/

namespace SearchContext
variable {c : SearchContext σ}

/-- No collaborator fails, and every text is given a vector. -/
structure Succeeds (c : SearchContext σ) : Prop where
  embeds : ∀ texts, Ends (c.embedder.embedBatch texts).external (fun vs => vs.length = texts.length)
    fun _ => False
  extracts : ∀ text most, Ends (c.extractor.keywords text most).external (fun _ => True) fun _ => False
  completes : ∀ model, c.model = some model →
    ∀ prompt, Ends (model.complete prompt).external (fun _ => True) fun _ => False

/-- Collaborators that know one vector and no words. -/
def plain (store : NodeStore) (most : Nat) (mode : TreeMode) : SearchContext Unit where
  store
  embedder := ⟨0, fun texts => pure (texts.map fun _ => [])⟩
  extractor := ⟨fun _ _ => pure []⟩
  settings := { topK := most }
  treeMode := mode

theorem plain_succeeds (store : NodeStore) (most : Nat) (mode : TreeMode) :
    (plain store most mode).Succeeds where
  embeds texts := Ends.pure (by simp)
  extracts _ _ := Ends.pure trivial
  completes model h := by cases h

end SearchContext

/-- A structure that checks out and is not answerable is reported as corrupt by some search. -/
theorem Index.exists_report {i : Index} (valid : i.validate store = .ok ())
    (ha : ¬ i.Answerable store) : ∃ most mode r,
      (SearchContext.plain store most mode).retriever i = .ok r ∧ Reports (r ⟨"", some []⟩) := by
  obtain ⟨_, hstructure, _⟩ := bind_eq_ok.mp valid
  have stored : i.Resolves store := (Index.validate_iff hstructure).mp valid
  cases i with
  | tree f =>
      simp only [Answerable, Forest.RootsStored] at ha
      push Not at ha
      obtain ⟨hfull, p, id, hp, hnot⟩ := ha
      by_cases hocc : f.Occupied p
      · have hmiss : store.contains id = false := by simpa using hnot hocc
        exact ⟨0, .root, _, rfl, Forest.retrieve_roots_reports hp hmiss hfull _⟩
      · exact ⟨0, .selectLeafEmbedding, _, rfl,
          Forest.retrieve_descent_reports ⟨id, hp⟩ hocc hfull _ _⟩
  | vectors m =>
      simp only [Answerable, VectorMap.KeptMapped] at ha
      push Not at ha
      obtain ⟨hfull, hbackend, x, hx, hfree⟩ := ha
      have hnone : m.nodes.get? x.1 = none := Option.eq_none_iff_forall_ne_some.mpr hfree
      exact ⟨m.embeddings.length, .root, _, rfl,
        VectorMap.retrieve_reports stored hx hnone hfull hbackend _ rfl⟩
  | keywordTable => exact (ha trivial).elim
  | list => exact (ha trivial).elim
  | relations => exact (ha trivial).elim

namespace Corpus
variable {c : Corpus}

/-- No search in a structure of the corpus, with collaborators that succeed and no engine, reports that
the corpus is corrupt. -/
def AnswersWithoutCorruption (c : Corpus) : Prop :=
  ∀ (σ : Type) (context : SearchContext σ), context.store = c.store → context.engine = none →
    context.Succeeds → ∀ key i, c.indices.indices.get? key = some i →
      ∀ r, context.retriever i = .ok r → ∀ q s what, ((r q).run s).1 ≠ .error (.corrupt what)

/-- A corpus that checks out answers without reporting corruption exactly if no search can reach a root
or a vector that the check has passed over. -/
theorem answers_without_corruption_iff (valid : c.validate = .ok ()) (keyed : c.store.Keyed) :
    c.AnswersWithoutCorruption ↔
      ∀ key i, c.indices.indices.get? key = some i → i.Answerable c.store := by
  have hvalid (key : String) (i : Index) (hi : c.indices.indices.get? key = some i) :
      i.validate c.store = .ok () :=
    forM_eq_ok_iff.mp valid i (SortedMap.mem_values.mpr ⟨key, hi⟩)
  constructor
  · intro h key i hi
    by_contra ha
    obtain ⟨most, mode, r, hr, hreports⟩ := Index.exists_report (hvalid key i hi) ha
    obtain ⟨what, hwhat⟩ := hreports.run ()
    exact h Unit _ rfl rfl (SearchContext.plain_succeeds c.store most mode) key i hi r hr _ _ what hwhat
  · intro ha σ context hstore hengine _ key i hi r hr q s what hwhat
    have hspares : Spares (r q) := by
      refine SearchContext.retriever_spares (c := context) ?_ ?_ ?_ hengine hr q
      · exact hstore ▸ keyed
      · exact hstore ▸ hvalid key i hi
      · exact hstore ▸ ha key i hi
    exact hspares.of_run_error hwhat what rfl

/-! ### Vectors that are kept and not mapped -/

/-- A map of the node `a` that keeps these vectors. -/
def vectorsKept (kept : List String) : VectorMap where
  id := "v"
  nodes := .ofList [("a", "a")]
  embeddings := kept.map fun v => (v, [1])

def keepingVectors (kept : List String) : Corpus where
  store := ⟨.ofList [("a", { id := "a", text := "alpha" })]⟩
  indices := ⟨.ofList [("v", .vectors (vectorsKept kept))]⟩

variable {kept : List String}

theorem get?_keepingVectors {key : String} {i : Index} :
    (keepingVectors kept).indices.indices.get? key = some i ↔ key = "v" ∧ i = .vectors (vectorsKept kept) := by
  rw [SortedMap.get?_eq_some_iff]
  exact List.mem_singleton.trans Prod.ext_iff

theorem keyed_keepingVectors : (keepingVectors kept).store.Keyed := by
  intro id n h
  have hin := List.mem_singleton.mp (SortedMap.get?_eq_some_iff.mp h)
  cases hin
  rfl

theorem answerable_keepingVectors :
    (Index.vectors (vectorsKept kept)).Answerable (keepingVectors kept).store ↔ ∀ v ∈ kept, v = "a" := by
  have hmapped (v : String) : (∃ id, (vectorsKept kept).nodes.get? v = some id) ↔ v = "a" := by
    constructor
    · rintro ⟨id, hid⟩
      exact congrArg Prod.fst (List.mem_singleton.mp (SortedMap.get?_eq_some_iff.mp hid))
    · rintro rfl
      exact ⟨"a", rfl⟩
  constructor
  · intro ha v hv
    exact (hmapped v).mp (ha rfl rfl (v, [1]) (List.mem_map_of_mem hv))
  · intro hall _ _ x hx
    obtain ⟨v, hv, rfl⟩ := List.mem_map.mp hx
    exact (hmapped v).mpr (hall v hv)

/-- The map answers while it keeps the vector of `a` only, and not once it keeps another one. -/
theorem answers_without_corruption_iff_keepingVectors :
    (keepingVectors ["a"]).AnswersWithoutCorruption ∧ ¬ (keepingVectors ["a", "b"]).AnswersWithoutCorruption := by
  constructor
  · refine (answers_without_corruption_iff rfl keyed_keepingVectors).mpr fun key i hi => ?_
    obtain ⟨_, rfl⟩ := get?_keepingVectors.mp hi
    exact answerable_keepingVectors.mpr (by simp)
  · intro h
    have ha := (answers_without_corruption_iff rfl keyed_keepingVectors).mp h "v" _
      (get?_keepingVectors.mpr ⟨rfl, rfl⟩)
    have hb := answerable_keepingVectors.mp ha "b" (by simp)
    exact absurd hb (by decide)

/-- Not every corpus that checks out answers without reporting corruption. -/
theorem not_every_checked_corpus_answers :
    ¬ ∀ c : Corpus, c.validate = .ok () → c.AnswersWithoutCorruption := by
  intro h
  have hvalid : (Index.vectors (vectorsKept ["a", "b"])).validate (keepingVectors ["a", "b"]).store = .ok () := rfl
  obtain ⟨most, mode, r, hr, hreports⟩ := Index.exists_report hvalid fun ha =>
    absurd (answerable_keepingVectors.mp ha "b" (by simp)) (by decide)
  obtain ⟨what, hwhat⟩ := hreports.run ()
  exact h (keepingVectors ["a", "b"]) rfl Unit _ rfl rfl (SearchContext.plain_succeeds _ most mode) "v" _
    (get?_keepingVectors.mpr ⟨rfl, rfl⟩) r hr _ _ what hwhat

end Corpus
end CorpusIndex
