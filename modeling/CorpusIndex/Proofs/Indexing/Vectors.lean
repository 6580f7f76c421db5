import CorpusIndex.Proofs.Indexing.Keywords
import CorpusIndex.Proofs.Vectors.Calls

/-!
# Vector maps of a batch

An embedder that answers every call fills the gaps of a batch node by node, whatever the sizes of its calls.
The nodes then enter an in-process map one after another, and the map they leave is known (`Maps`): a vector
for every node, listed under the document of the node. Deleting a document takes out what entering its
nodes put in.
-/
namespace CorpusIndex

variable {σ : Type} {e : Embedder σ} {f : String → Embedding} {batch nodes done : List Node} {n : Node}
  {doc id v : String} {store : NodeStore}

/-- From states in `I` the embedder gives every text a vector in `R`, and `I` goes on holding. The vectors
have the dimension of the embedder. -/
structure Embedder.Answers (e : Embedder σ) (I : σ → Prop) (R : String → Embedding → Prop) : Prop where
  embeds : ∀ texts s, I s →
    ∃ vs s', (e.embedBatch texts).run s = (.ok vs, s') ∧ I s' ∧ List.Forall₂ R texts vs
  dimension : ∀ text v, R text v → v.length = e.dim

/-- The embedder maps every text to a vector of its dimension, the same in every call. -/
structure Embedder.Textwise (e : Embedder σ) (f : String → Embedding) : Prop where
  embeds : ∀ texts s, ((e.embedBatch texts).run s).1 = .ok (texts.map f)
  dimension : ∀ text, (f text).length = e.dim

theorem Embedder.Textwise.answers (h : e.Textwise f) :
    e.Answers (fun _ => True) fun text v => v = f text where
  embeds texts s _ := by
    refine ⟨texts.map f, ((e.embedBatch texts).run s).2, Prod.ext (h.embeds texts s) rfl, trivial, ?_⟩
    exact List.forall₂_map_right_iff.mpr (List.forall₂_same.mpr fun _ _ => rfl)
  dimension text v hv := hv ▸ h.dimension text

namespace VectorMap
variable {m m' : VectorMap} {I : σ → Prop} {R : String → Embedding → Prop}

/-! ### Embedding text by text -/

/-- The node with an embedding in `R`. -/
def Embedded (R : String → Embedding → Prop) (n n' : Node) : Prop :=
  ∃ v, R n.text v ∧ n' = { n with embedding := some v }

/-- The node with its own embedding, or else with one in `R`. -/
def Completed (R : String → Embedding → Prop) (n n' : Node) : Prop :=
  (n.embedding = none ∧ Embedded R n n') ∨ (n.embedding ≠ none ∧ n' = n)

/-- The node with its own embedding, or else with that of its text. -/
def filled (f : String → Embedding) (n : Node) : Node :=
  { n with embedding := some (n.embedding.getD (f n.text)) }

theorem takeVectors_answers {vs : List Embedding} (hlength : ∀ text v, R text v → v.length = dim)
    (h : List.Forall₂ R (batch.map (·.text)) vs) :
    ∃ done, takeVectors dim batch vs = (done, .ok ()) ∧ List.Forall₂ (Embedded R) batch done := by
  induction batch generalizing vs with
  | nil => exact ⟨[], rfl, .nil⟩
  | cons n batch ih =>
      cases h with
      | @cons _ v _ vs hv hrest =>
          obtain ⟨done, htake, hdone⟩ := ih hrest
          refine ⟨{ n with embedding := some v } :: done, ?_, .cons ⟨v, hv, rfl⟩ hdone⟩
          rw [takeVectors, if_neg (not_not.mpr (hlength _ v hv)), htake]

theorem embedBatch_answers (h : e.Answers I R) (batch : List Node) {s : σ} (hs : I s) :
    ∃ done s', (embedBatch e batch).run s = ((done, .ok ()), s') ∧ I s' ∧
      List.Forall₂ (Embedded R) batch done := by
  obtain ⟨vs, s', hrun, hs', hvs⟩ := h.embeds (batch.map (·.text)) s hs
  obtain ⟨done, htake, hdone⟩ := takeVectors_answers h.dimension hvs
  have hcall : StateT.run (e.embedBatch (batch.map (·.text))).external.run s = (.ok vs, s') :=
    (external_run _ s).trans (by rw [hrun])
  have hlength : vs.length = batch.length := by simpa using hvs.length_eq.symm
  refine ⟨done, s', ?_, hs', hdone⟩
  unfold embedBatch
  rw [runState_bind, hcall]
  dsimp only
  rw [if_neg (not_not.mpr hlength), htake]
  rfl

theorem embedBatches_answers (h : e.Answers I R) (batches : List (List Node)) {s : σ} (hs : I s) :
    ∃ done s', (embedBatches e batches).run s = ((done, .ok ()), s') ∧ I s' ∧
      List.Forall₂ (Embedded R) batches.flatten done := by
  induction batches generalizing s with
  | nil => exact ⟨[], s, rfl, hs, .nil⟩
  | cons batch batches ih =>
      obtain ⟨done, s₁, hbatch, hs₁, hdone⟩ := embedBatch_answers h batch hs
      obtain ⟨more, s₂, hbatches, hs₂, hmore⟩ := ih hs₁
      refine ⟨done ++ more, s₂, ?_, hs₂, List.rel_append hdone hmore⟩
      unfold embedBatches
      rw [runState_bind, hbatch]
      dsimp only
      rw [runState_bind, hbatches]
      rfl

theorem putBack_completed (nodes : List Node)
    (h : List.Forall₂ (Embedded R) (nodes.filter (·.embedding.isNone)) done) :
    List.Forall₂ (Completed R) nodes (putBack nodes done) := by
  induction nodes generalizing done with
  | nil => exact .nil
  | cons n nodes ih =>
      cases hn : n.embedding with
      | none =>
          rw [List.filter_cons_of_pos (by simp [hn])] at h
          cases h with
          | cons hone hrest =>
              simp only [putBack, hn]
              exact .cons (.inl ⟨hn, hone⟩) (ih hrest)
      | some v =>
          rw [List.filter_cons_of_neg (by simp [hn])] at h
          simp only [putBack, hn]
          exact .cons (.inr ⟨by simp [hn], rfl⟩) (ih h)

/-- Every gap is filled, in batches of any size. -/
theorem embedMissing_answers (h : e.Answers I R) (batchSize : Nat) (nodes : List Node) {s : σ} (hs : I s) :
    ∃ done s', (embedMissing e batchSize nodes).run s = ((done, .ok ()), s') ∧ I s' ∧
      List.Forall₂ (Completed R) nodes done := by
  obtain ⟨done, s', hrun, hs', hdone⟩ := embedBatches_answers h
    (groups (max batchSize 1) (nodes.filter (·.embedding.isNone))) hs
  rw [flatten_groups] at hdone
  refine ⟨putBack nodes done, s', ?_, hs', putBack_completed nodes hdone⟩
  unfold embedMissing
  rw [runState_bind, hrun]
  rfl

theorem eq_filled_of_completed {n' : Node} (h : Completed (fun text v => v = f text) n n') :
    n' = filled f n := by
  rcases h with ⟨hn, v, rfl, rfl⟩ | ⟨hn, rfl⟩
  · rw [filled, hn, Option.getD_none]
  · obtain ⟨v, hv⟩ := Option.ne_none_iff_exists'.mp hn
    rw [filled, hv, Option.getD_some, ← hv]

theorem embedMissing_textwise (h : e.Textwise f) (batchSize : Nat) (nodes : List Node) (s : σ) :
    ((embedMissing e batchSize nodes).run s).1 = (nodes.map (filled f), .ok ()) := by
  obtain ⟨done, s', hrun, _, hdone⟩ := embedMissing_answers h.answers batchSize nodes (s := s) trivial
  have hall : List.Forall₂ Eq (nodes.map (filled f)) done :=
    List.forall₂_map_left_iff.mpr (hdone.imp fun _ _ hn => (eq_filled_of_completed hn).symm)
  rw [hrun, (List.forall₂_eq_eq_eq ▸ hall : nodes.map (filled f) = done)]

/-! ### Embedding that succeeds -/

theorem takeVectors_embeds {dim : ℕ} {vs : List Embedding} (hlength : vs.length = batch.length)
    (h : takeVectors dim batch vs = (done, .ok ())) :
    List.Forall₂ (Embedded fun _ v => v.length = dim) batch done := by
  induction batch generalizing vs done with
  | nil =>
      have hvs := List.eq_nil_of_length_eq_zero hlength
      subst hvs
      cases h
      exact .nil
  | cons n batch ih =>
      cases vs with
      | nil => cases hlength
      | cons v vs =>
          unfold takeVectors at h
          split at h
          next => cases h
          next hdim =>
            obtain ⟨rfl, hok⟩ := Prod.ext_iff.mp h
            apply List.Forall₂.cons
            · exact ⟨v, by simpa using hdim, rfl⟩
            · exact ih (by simpa using hlength) (Prod.ext rfl hok)

theorem embedBatch_embeds {s s' : σ} (h : (embedBatch e batch).run s = ((done, .ok ()), s')) :
    List.Forall₂ (Embedded fun _ v => v.length = e.dim) batch done := by
  unfold embedBatch at h
  rw [runState_bind] at h
  split at h
  next => cases h
  next vs _ =>
    split at h
    next => cases h
    next hlength => exact takeVectors_embeds (by simpa using hlength) (Prod.ext_iff.mp h).1

theorem embedBatches_embeds {batches : List (List Node)} {s s' : σ}
    (h : (embedBatches e batches).run s = ((done, .ok ()), s')) :
    List.Forall₂ (Embedded fun _ v => v.length = e.dim) batches.flatten done := by
  induction batches generalizing s done with
  | nil =>
      cases h
      exact .nil
  | cons batch batches ih =>
      unfold embedBatches at h
      rw [runState_bind] at h
      rcases hbatch : (embedBatch e batch).run s with ⟨⟨first, r⟩, t⟩
      rw [hbatch] at h
      cases r with
      | error f => cases h
      | ok _ =>
          dsimp only at h
          rw [runState_bind] at h
          rcases hrest : (embedBatches e batches).run t with ⟨⟨more, r⟩, t'⟩
          rw [hrest] at h
          cases r with
          | error f => cases h
          | ok _ =>
              cases h
              exact List.rel_append (embedBatch_embeds hbatch) (ih hrest)

/-- Where embedding succeeds, every node keeps its embedding or has a new one. -/
theorem embedMissing_completes {batchSize : ℕ} {s s' : σ}
    (h : (embedMissing e batchSize nodes).run s = ((done, .ok ()), s')) :
    List.Forall₂ (Completed fun _ v => v.length = e.dim) nodes done := by
  unfold embedMissing at h
  rw [runState_bind] at h
  rcases hbatches : (embedBatches e (groups (max batchSize 1) (nodes.filter (·.embedding.isNone)))).run s
    with ⟨⟨new, r⟩, t⟩
  rw [hbatches] at h
  cases h
  have hnew := embedBatches_embeds hbatches
  rw [flatten_groups] at hnew
  exact putBack_completed nodes hnew

/-! ### The map of a batch -/

/-- Vector ids of the nodes of a document, in order. -/
def listing (doc : String) (nodes : List Node) : List String :=
  (nodes.filter (·.document == some doc)).map (·.id)

theorem mem_of_mem_listing (h : v ∈ listing doc nodes) : ∃ n ∈ nodes, n.id = v := by
  obtain ⟨n, hn, hid⟩ := List.mem_map.mp h
  exact ⟨n, List.mem_of_mem_filter hn, hid⟩

theorem mem_listing_iff (hnd : (nodes.map (·.id)).Nodup) (hn : n ∈ nodes) :
    n.id ∈ listing doc nodes ↔ n.document = some doc := by
  rw [listing, List.mem_map]
  constructor
  · rintro ⟨k, hk, hid⟩
    obtain ⟨hk, hdoc⟩ := List.mem_filter.mp hk
    cases List.inj_on_of_nodup_map hnd hk hn hid
    exact beq_iff_eq.mp hdoc
  · intro hdoc
    exact ⟨n, List.mem_filter.mpr ⟨hn, beq_iff_eq.mpr hdoc⟩, rfl⟩

theorem listing_append (d : String) (nodes : List Node) (n : Node) :
    listing d (nodes ++ [n]) =
      if n.document = some d then listing d nodes ++ [n.id] else listing d nodes := by
  unfold listing
  split
  next hd => simp [List.filter_append, hd]
  next hd => simp [List.filter_append, hd]

theorem listing_withoutDocument_self (doc : String) (nodes : List Node) :
    listing doc (withoutDocument doc nodes) = [] := by
  rw [listing, withoutDocument, List.filter_filter]
  simp

theorem listing_withoutDocument_of_ne {d : String} (hd : d ≠ doc) (nodes : List Node) :
    listing d (withoutDocument doc nodes) = listing d nodes := by
  rw [listing, withoutDocument, List.filter_filter, listing]
  refine congrArg _ (List.filter_congr fun n _ => ?_)
  cases hdoc : n.document == some d with
  | false => rfl
  | true => simp [beq_iff_eq.mp hdoc, hd]

theorem filter_not_listing (hnd : (nodes.map (·.id)).Nodup) :
    nodes.filter (fun n => !(listing doc nodes).contains n.id) = withoutDocument doc nodes := by
  refine List.filter_congr fun n hn => congrArg _ ?_
  rw [Bool.eq_iff_iff, List.contains_iff_mem, mem_listing_iff hnd hn, beq_iff_eq]

theorem withoutDocument_of_listing_nil (hnd : (nodes.map (·.id)).Nodup) (hnil : listing doc nodes = []) :
    withoutDocument doc nodes = nodes := by
  rw [← filter_not_listing hnd, hnil]
  exact List.filter_eq_self.mpr fun _ _ => rfl

/-- The entry of a node under its own id. -/
def entryOf (n : Node) : VectorEntry := ⟨n.id, n.embedding.getD [], n.document, n.metadata⟩

theorem map_id_entryOf (nodes : List Node) : (nodes.map entryOf).map (·.id) = nodes.map (·.id) := by
  rw [List.map_map]
  rfl

/-- The map holds every node of the batch under its own id, and nothing else. -/
structure Maps (m : VectorMap) (id : String) (nodes : List Node) : Prop where
  header : m.id = id ∧ m.summary = none ∧ m.backend = .simple
  nodes_iff : ∀ v i, m.nodes.get? v = some i ↔ i = v ∧ v ∈ nodes.map (·.id)
  documents_iff : ∀ d vs, m.documents.get? d = some vs ↔ vs = listing d nodes ∧ vs ≠ []
  embeddings_eq : m.embeddings = nodes.map fun n => (n.id, n.embedding.getD [])

theorem putEmbedding_of_not_mem {l : List (String × Embedding)} {v : String} (x : Embedding)
    (h : v ∉ l.map (·.1)) : putEmbedding v x l = l ++ [(v, x)] := by
  induction l with
  | nil => rfl
  | cons a l ih =>
      obtain ⟨hne, hrest⟩ := not_or.mp (List.mem_cons.not.mp h)
      rw [putEmbedding, if_neg (Ne.symm hne), ih hrest]
      rfl

namespace Maps

theorem empty (id : String) : ({ id } : VectorMap).Maps id [] := by
  refine ⟨⟨rfl, rfl, rfl⟩, fun v i => ?_, fun d vs => ?_, rfl⟩
  · simp
  · simp only [SortedMap.get?_emptyCollection, listing]
    simp

/-- The batch decides its map. -/
theorem unique (h : m.Maps id nodes) (h' : m'.Maps id nodes) : m = m' := by
  have hnodes : m.nodes = m'.nodes := by
    refine SortedMap.ext_get? fun v => Option.ext fun i => ?_
    rw [h.nodes_iff, h'.nodes_iff]
  have hdocuments : m.documents = m'.documents := by
    refine SortedMap.ext_get? fun d => Option.ext fun vs => ?_
    rw [h.documents_iff, h'.documents_iff]
  have hembeddings := h.embeddings_eq.trans h'.embeddings_eq.symm
  obtain ⟨hid, hsummary, hbackend⟩ := h.header
  obtain ⟨hid', hsummary', hbackend'⟩ := h'.header
  cases m
  cases m'
  simp_all

theorem listing_eq_nil (h : m.Maps id nodes) {d : String} (hd : m.documents.get? d = none) :
    listing d nodes = [] := by
  by_contra hne
  have hsome := (h.documents_iff d _).mpr ⟨rfl, hne⟩
  rw [hd] at hsome
  cases hsome

theorem lists_iff (h : m.Maps id nodes) {d : String} : m.Lists d v ↔ v ∈ listing d nodes := by
  rw [Lists, SortedMap.getD_eq]
  cases hd : m.documents.get? d with
  | none => rw [h.listing_eq_nil hd, Option.getD_none]
  | some vs => rw [((h.documents_iff d vs).mp hd).1, Option.getD_some]

theorem filed (h : m.Maps id nodes) (hnd : (nodes.map (·.id)).Nodup) : m.Filed where
  mapped d v hv := by
    obtain ⟨n, hn, rfl⟩ := mem_of_mem_listing (h.lists_iff.mp hv)
    exact ⟨n.id, (h.nodes_iff _ _).mpr ⟨rfl, List.mem_map_of_mem hn⟩⟩
  single d d' v hv hv' := by
    obtain ⟨n, hn, rfl⟩ := mem_of_mem_listing (h.lists_iff.mp hv)
    have hd := (mem_listing_iff hnd hn).mp (h.lists_iff.mp hv)
    have hd' := (mem_listing_iff hnd hn).mp (h.lists_iff.mp hv')
    exact Option.some.inj (hd.symm.trans hd')

/-- A new node enters at the end. -/
theorem add (h : m.Maps id nodes) (hn : n.id ∉ nodes.map (·.id)) :
    ∃ m', m.add n none = .ok (m', n.id) ∧
      (m'.embed n.id (n.embedding.getD [])).Maps id (nodes ++ [n]) := by
  have hfree : m.nodes.get? n.id = none := by
    cases hget : m.nodes.get? n.id with
    | none => rfl
    | some i => exact (hn ((h.nodes_iff n.id i).mp hget).2).elim
  refine ⟨_, by rw [VectorMap.add, Option.getD_none, hfree], ?_, fun v i => ?_, fun d vs => ?_, ?_⟩
  · exact h.header
  · simp only [embed, SortedMap.get?_insert_eq_some, h.nodes_iff, List.map_append, List.map_cons,
      List.map_nil, List.mem_append, List.mem_singleton]
    constructor
    · rintro (⟨rfl, rfl⟩ | ⟨_, rfl, hv⟩)
      · exact ⟨rfl, .inr rfl⟩
      · exact ⟨rfl, .inl hv⟩
    · rintro ⟨rfl, hv | rfl⟩
      · refine .inr ⟨?_, rfl, hv⟩
        rintro rfl
        exact hn hv
      · exact .inl ⟨rfl, rfl⟩
  · rw [listing_append]
    simp only [embed]
    cases hdoc : n.document with
    | none => simpa using h.documents_iff d vs
    | some d' =>
        have hbefore : m.documents.getD d' [] = listing d' nodes := by
          rw [SortedMap.getD_eq]
          cases hget : m.documents.get? d' with
          | some us => exact ((h.documents_iff d' us).mp hget).1
          | none => exact (h.listing_eq_nil hget).symm
        simp only [SortedMap.update, hbefore, SortedMap.get?_insert_eq_some, Option.some.injEq]
        by_cases hd : d = d'
        · subst hd
          simp only [true_and, ne_eq, not_true_eq_false, false_and, or_false, if_true]
          refine (and_iff_left_of_imp ?_).symm
          rintro rfl
          simp
        · simp [hd, Ne.symm hd, h.documents_iff]
  · have hkeys : n.id ∉ m.embeddings.map (·.1) := by
      rw [h.embeddings_eq]
      simpa using hn
    simp only [embed]
    rw [putEmbedding_of_not_mem _ hkeys, h.embeddings_eq, List.map_append]
    rfl

/-- New nodes enter one after another, and an engine is to take an entry for each. -/
theorem enter (h : m.Maps id done) (nodes : List Node) (hnd : ((done ++ nodes).map (·.id)).Nodup) :
    ∃ m', m.enter nodes = .ok (m', nodes.map entryOf) ∧ m'.Maps id (done ++ nodes) := by
  induction nodes generalizing m done with
  | nil => exact ⟨m, rfl, by simpa using h⟩
  | cons n nodes ih =>
      have hsplit : done ++ n :: nodes = (done ++ [n]) ++ nodes := by simp
      have hn : n.id ∉ done.map (·.id) := by
        rw [List.map_append, List.nodup_append] at hnd
        intro hin
        exact hnd.2.2 _ hin _ (by simp) rfl
      obtain ⟨m₁, hadd, h₁⟩ := h.add hn
      have hinside : m₁.backend.inProcess = true := by
        rw [backend_add hadd, h.header.2.2]
        rfl
      rw [hsplit] at hnd ⊢
      obtain ⟨m', henter, hm'⟩ := ih h₁ hnd
      refine ⟨m', ?_, hm'⟩
      rw [VectorMap.enter, hadd, ok_bind]
      simp only [hinside, if_true, henter, ok_bind]
      rfl

/-- A document leaves the map of a batch with its nodes. -/
theorem deleteDocument (h : m.Maps id nodes) (hnd : (nodes.map (·.id)).Nodup) (doc : String) :
    ∃ m', ((Index.vectors m).deleteDocument doc store).1 = .vectors m' ∧
      m'.Maps id (withoutDocument doc nodes) := by
  cases hget : m.documents.get? doc with
  | none =>
      have hsame := withoutDocument_of_listing_nil hnd (h.listing_eq_nil hget)
      refine ⟨m, ?_, hsame.symm ▸ h⟩
      simp only [Index.deleteDocument, VectorMap.deleteDocument, hget, Index.afterDeletion]
  | some vs =>
      obtain ⟨rfl, _⟩ := (h.documents_iff doc vs).mp hget
      have hdel : ((Index.vectors m).deleteDocument doc store).1 = .vectors { m with
          documents := m.documents.erase doc
          nodes := (listing doc nodes).foldl SortedMap.erase m.nodes
          embeddings := m.embeddings.filter (fun e => !(listing doc nodes).contains e.1) } := by
        simp only [Index.deleteDocument, VectorMap.deleteDocument, hget, Index.afterDeletion]
      refine ⟨_, hdel, h.header, fun v i => ?_, fun d us => ?_, ?_⟩
      · rw [SortedMap.get?_foldl_erase, h.nodes_iff, and_left_comm]
        refine and_congr_right fun _ => ?_
        simp only [List.mem_map, mem_withoutDocument]
        constructor
        · rintro ⟨hout, n, hn, rfl⟩
          exact ⟨n, ⟨hn, fun hdoc => hout ((mem_listing_iff hnd hn).mpr hdoc)⟩, rfl⟩
        · rintro ⟨n, ⟨hn, hdoc⟩, rfl⟩
          exact ⟨fun hin => hdoc ((mem_listing_iff hnd hn).mp hin), n, hn, rfl⟩
      · rw [SortedMap.get?_erase_eq_some, h.documents_iff]
        by_cases hd : d = doc
        · subst hd
          simp only [listing_withoutDocument_self]
          simp
        · simp [hd, listing_withoutDocument_of_ne hd]
      · rw [h.embeddings_eq, List.filter_map, ← filter_not_listing hnd]
        rfl

end Maps

/-! ### Inserting -/

/-- Without an engine the proposed ids stay, and registering a batch is entering it. -/
theorem register_none_run {entries : List VectorEntry} (h : m.enter nodes = .ok (m', entries)) (s : σ) :
    (register none m nodes).run s = (.ok (m', entries.map (·.id)), s) := by
  have hsame := rebindAll_self m' (entries.map (·.id))
  simp only [register, h, liftM_ok_bind, pure_bind, ne_eq, not_true_eq_false, if_false, hsame]
  rfl

/-- An engine that keeps the entries under the proposed ids leaves the map as it is. -/
theorem register_some_run {entries : List VectorEntry} {engine : VectorEngine σ} {s s' : σ}
    (h : m.enter nodes = .ok (m', entries))
    (hadd : (engine.add entries).run s = (.ok (entries.map (·.id)), s')) :
    (register (some engine) m nodes).run s = (.ok (m', entries.map (·.id)), s') := by
  have hsame := rebindAll_self m' (entries.map (·.id))
  have hcall : (engine.add entries).external.run s = (.ok (entries.map (·.id)), s') :=
    (external_run _ s).trans (by rw [hadd])
  simp only [register, h, liftM_ok_bind]
  rw [run_bind, hcall]
  simp only [ne_eq, not_true_eq_false, if_false, hsame]
  rfl

/-- Nodes that could be embedded and registered are inserted. -/
theorem insert_of_steps {engine : Option (VectorEngine σ)} {batchSize : Nat} {ids : List String}
    {s s₁ s₂ : σ} (hbackend : m.backend = .simple)
    (hembed : (embedMissing e batchSize nodes).run s = ((done, .ok ()), s₁))
    (hregister : (register engine m done).run s₁ = (.ok (m', ids), s₂)) :
    (insert e engine batchSize m nodes).run s = (⟨m', done, .ok ids⟩, s₂) := by
  have hinside : (!m.backend.inProcess && engine.isNone) = false := by
    rw [hbackend]
    rfl
  have hregister : StateT.run (register engine m done).run s₁ = (.ok (m', ids), s₂) := hregister
  unfold insert
  simp only [hinside, Bool.false_eq_true, if_false]
  rw [runState_bind, hembed]
  dsimp only
  rw [runState_bind, hregister]
  rfl

/-- Inserting a batch into an empty in-process map succeeds with the map of the batch. -/
theorem insert_run (h : e.Textwise f) (hnd : (batch.map (·.id)).Nodup) (batchSize : Nat) (id : String)
    (s : σ) : ∃ m, ((insert e none batchSize { id } batch).run s).1 =
        ⟨m, batch.map (filled f), .ok (batch.map (·.id))⟩ ∧ m.Maps id (batch.map (filled f)) := by
  have hids : (batch.map (filled f)).map (·.id) = batch.map (·.id) := by
    rw [List.map_map]
    rfl
  obtain ⟨m, henter, hm⟩ := (Maps.empty id).enter (batch.map (filled f)) (by simpa using hids ▸ hnd)
  refine ⟨m, ?_, by simpa using hm⟩
  have hembed : (embedMissing e batchSize batch).run s = ((batch.map (filled f), .ok ()), _) :=
    Prod.ext (embedMissing_textwise h batchSize batch s) rfl
  rw [insert_of_steps rfl hembed (register_none_run henter _), map_id_entryOf, hids]

end VectorMap
end CorpusIndex
