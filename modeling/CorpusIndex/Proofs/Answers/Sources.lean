import CorpusIndex.Proofs.Answers.Corruption

/-!
# Where hits come from

Every search puts nodes into its answer that it has looked up in the store, and it looks up only ids that
the structure refers to. A forest made by edits is also walked to its end: no search in it reports a
circle, whatever the store holds.
-/
namespace CorpusIndex

variable {σ : Type} {store : NodeStore} {ids : List String} {q : Query}

/-- The hit is a stored node under one of the ids. -/
def NodeStore.Backs (store : NodeStore) (ids : List String) (h : Hit) : Prop :=
  h.node.id ∈ ids ∧ store.nodes.get? h.node.id = some h.node

/-- The failure does not say that a forest turns in a circle. -/
def NoCircle (e : Failure) : Prop := ∀ tree, e ≠ .corrupt (.cycle tree)

theorem NotCorrupt.noCircle {e : Failure} (h : NotCorrupt e) : NoCircle e := fun _ => h _

/-- The action finds stored nodes under the ids, and never reports a circle. -/
def Finds (store : NodeStore) (ids : List String) (a : Action σ Retrieval) : Prop :=
  Ends a (fun r => ∀ h ∈ r.hits, store.Backs ids h) NoCircle

theorem Finds.nothing : Finds store ids (pure {} : Action σ Retrieval) :=
  Ends.pure fun _ h => by cases h

/-- An action that never reports corruption never reports a circle. -/
theorem Spares.noCircle {α : Type} {a : Action σ α} (h : Spares a) : Ends a (fun _ => True) NoCircle :=
  h.imp (fun _ _ => trivial) fun _ => NotCorrupt.noCircle

/-! ### Looking up -/

namespace NodeStore

theorem resolve_noCircle {id : String} {e : Failure} (h : store.resolve id = .error e) : NoCircle e := by
  unfold resolve at h
  split at h
  next => cases h
  next => cases h; exact fun tree h => by cases h

theorem resolve_finds (k : store.Keyed) {id : String} (hid : id ∈ ids) :
    Ends (liftM (store.resolve id) : Action σ Node) (fun n => ∀ score, store.Backs ids ⟨n, score⟩)
      NoCircle := by
  refine Ends.lift (fun n hn score => ?_) fun e he => resolve_noCircle he
  have hget := resolve_eq_ok.mp hn
  cases k id n hget
  exact ⟨hid, hget⟩

theorem resolveAll_finds (k : store.Keyed) {l : List String} (hl : ∀ id ∈ l, id ∈ ids) :
    Ends (liftM (store.resolveAll l) : Action σ (List Node))
      (fun nodes => nodes.map (·.id) = l ∧ ∀ n ∈ nodes, ∀ score, store.Backs ids ⟨n, score⟩) NoCircle := by
  have hid (id : String) (n : Node) (h : store.resolve id = .ok n) : n.id = id :=
    k id n (resolve_eq_ok.mp h)
  refine Ends.lift (fun nodes hnodes => ?_) fun e he => ?_
  · have hsame : nodes.map (·.id) = l := map_of_mapM_eq_ok hid hnodes
    refine ⟨hsame, fun n hn score => ⟨hl _ (hsame ▸ List.mem_map_of_mem hn), ?_⟩⟩
    obtain ⟨id, _, h⟩ := mem_of_mapM_eq_ok hnodes hn
    exact hid id n h ▸ resolve_eq_ok.mp h
  · obtain ⟨id, _, h⟩ := mapM_eq_error he
    exact resolve_noCircle h

end NodeStore

/-! ### Kinds of structures -/

namespace KeywordTable

theorem retrieve_finds (k : store.Keyed) (t : KeywordTable) (x : KeywordExtractor σ) (limits : KeywordLimits)
    (q : Query) : Finds store t.nodeIds (t.retrieve store x limits q) := by
  unfold retrieve
  split
  · exact Finds.nothing
  · refine Ends.bind (P := fun _ => True) ?_ fun keywords _ => ?_
    · exact Ends.bind (Spares.external _).noCircle fun _ _ => Ends.pure trivial
    refine Ends.bind (Ends.mapM fun r hr => ?_) fun hits hhits => Ends.pure hhits
    exact Ends.bind (NodeStore.resolve_finds k (mem_nodeIds_of_ranked hr)) fun n hn => Ends.pure (hn _)

end KeywordTable

namespace RelationGraph

theorem retrieve_finds (k : store.Keyed) (g : RelationGraph) (x : KeywordExtractor σ) (limits : KeywordLimits)
    (q : Query) : Finds store g.nodeIds (g.retrieve store x limits q) := by
  unfold retrieve retrieveWithFacts
  refine Ends.bind (P := fun r => ∀ h ∈ r.1.hits, store.Backs g.nodeIds h) ?_ fun _ h => Ends.pure h
  split
  · exact Ends.pure fun _ h => by cases h
  · refine Ends.bind (Spares.external _).noCircle fun keywords _ => ?_
    have hlookup (keyword : String) : Ends (liftM (g.lookup keyword 1) : Action σ (List String))
        (fun ids => ∀ id ∈ ids, id ∈ g.nodeIds) NoCircle := by
      obtain ⟨ids, hids, hmem⟩ := g.lookup_direct keyword
      rw [hids]
      exact Ends.pure hmem
    refine Ends.bind (Ends.mapM fun keyword _ => hlookup keyword) fun found hfound => ?_
    have hids : ∀ id ∈ found.flatten.eraseDups.take limits.nodes, id ∈ g.nodeIds := by
      intro id hid
      obtain ⟨ids, hids, hid⟩ := List.mem_flatten.mp (List.mem_eraseDups.mp (List.mem_of_mem_take hid))
      exact hfound ids hids id hid
    refine Ends.bind (NodeStore.resolveAll_finds k hids) fun nodes hnodes => Ends.pure fun h hh => ?_
    obtain ⟨n, hn, rfl⟩ := List.mem_map.mp hh
    exact hnodes.2 n hn none

end RelationGraph

namespace NodeList

theorem hits_addScored {l : List (Node × Float32)} {r : Retrieval} {h : Hit}
    (hh : h ∈ (l.foldl (fun r c => r.addScored c.1.id c.1 c.2) r).hits) :
    h ∈ r.hits ∨ ∃ c ∈ l, h = ⟨c.1, some c.2⟩ := by
  induction l generalizing r with
  | nil => exact .inl hh
  | cons c l ih =>
      rcases ih hh with hh | ⟨d, hd, rfl⟩
      · rcases List.mem_append.mp hh with hh | hh
        · exact .inl hh
        · exact .inr ⟨c, List.mem_cons_self, List.mem_singleton.mp hh⟩
      · exact .inr ⟨d, List.mem_cons_of_mem _ hd, rfl⟩

theorem rank_finds (e : Embedder σ) (most : Nat) (q : Query) {nodes : List Node}
    (hnodes : ∀ n ∈ nodes, ∀ score, store.Backs ids ⟨n, score⟩) : Finds store ids (rank e most q nodes) := by
  unfold rank
  refine Ends.bind (q.embed_spares e).noCircle fun v _ => ?_
  refine Ends.bind (e.embedNodes_spares nodes).noCircle fun embeddings _ => Ends.pure fun h hh => ?_
  rcases hits_addScored hh with hh | ⟨c, hc, rfl⟩
  · cases hh
  · obtain ⟨p, hp, hsame⟩ := List.mem_map.mp (mem_nearest hc)
    exact hsame ▸ hnodes p.1 (List.of_mem_zip hp).1 _

theorem retrieve_finds (k : store.Keyed) (l : NodeList) (ranking : Option (Embedder σ × Nat))
    (filter : WordFilter) (q : Query) : Finds store l.nodes (l.retrieve store ranking filter q) := by
  have hcandidates : Ends (liftM (l.candidates store filter) : Action σ (List Node))
      (fun nodes => ∀ n ∈ nodes, ∀ score, store.Backs l.nodes ⟨n, score⟩) NoCircle := by
    refine Ends.lift_bind (NodeStore.resolveAll_finds k fun _ hid => hid) fun nodes hnodes => ?_
    exact Ends.pure fun n hn => hnodes.2 n (List.mem_of_mem_filter hn)
  unfold retrieve
  split
  · exact Finds.nothing
  · refine Ends.bind hcandidates fun nodes hnodes => ?_
    split
    next =>
      refine Ends.pure fun h hh => ?_
      obtain ⟨n, hn, rfl⟩ := List.mem_map.mp hh
      exact hnodes n hn none
    next e most => exact rank_finds e most q hnodes

end NodeList

namespace VectorMap

theorem retrieve_finds (k : store.Keyed) (m : VectorMap) (e : Embedder σ) (engine : Option (VectorEngine σ))
    (most : Nat) (q : Query) : Finds store m.nodeIds (m.retrieve store e engine most none q) := by
  have hsearch (v : Embedding) :
      Ends (m.search store engine most none v) (fun _ => True) NoCircle := by
    unfold search
    split
    · exact (Spares.external _).noCircle
    · exact Ends.ite (Ends.pure trivial) (Ends.throw fun _ h => by cases h)
  have hnode (v : String) : Ends (liftM (m.nodeOf v) : Action σ String) (fun id => id ∈ m.nodeIds) NoCircle := by
    unfold nodeOf
    split
    next id hid => exact Ends.pure (SortedMap.mem_values.mpr ⟨v, hid⟩)
    next => exact Ends.throw fun _ h => by cases h
  unfold retrieve
  split
  · exact Finds.nothing
  · refine Ends.bind (q.embed_spares e).noCircle fun v _ => Ends.bind (hsearch v) fun found _ => ?_
    refine Ends.foldlM_keeps (fun out hout x _ => ?_) fun _ h => by cases h
    refine Ends.bind (hnode x.1) fun id hid => Ends.bind (NodeStore.resolve_finds k hid) fun n hn => ?_
    exact Ends.pure (List.forall_mem_append.mpr ⟨hout, List.forall_mem_singleton.mpr (hn _)⟩)

end VectorMap

namespace Forest

theorem hitsOf_finds (k : store.Keyed) {l : List String} (hl : ∀ id ∈ l, id ∈ ids) :
    Finds store ids (do return { hits := ← hitsOf store l } : Action σ Retrieval) := by
  refine Ends.bind (P := fun hits => ∀ h ∈ hits, store.Backs ids h) ?_ fun hits hhits => Ends.pure hhits
  refine Ends.lift_bind (NodeStore.resolveAll_finds k hl) fun nodes hnodes => Ends.pure fun h hh => ?_
  obtain ⟨n, hn, rfl⟩ := List.mem_map.mp hh
  exact hnodes.2 n hn none

/-- A well-formed forest is walked to its end. -/
theorem retrieve_finds {f : Forest} (w : f.WellFormed) (k : store.Keyed) {t : Traversal σ} (ht : t.Spares)
    (r : Reach) (q : Query) : Finds store f.nodeIds (f.retrieve store t r q) := by
  unfold retrieve
  dsimp only
  refine Ends.refuse (fun _ h => by cases h) (Ends.refuse (fun _ h => by cases h) ?_)
  split
  · exact Finds.nothing
  · cases t with
    | leaves => exact hitsOf_finds k fun id hid => List.mem_of_mem_filter hid
    | roots =>
        refine hitsOf_finds k fun id hid => ?_
        obtain ⟨p, hp⟩ := SortedMap.mem_values.mp hid
        exact SortedMap.mem_values.mpr ⟨p, ((w.roots_iff p id).mp hp).1⟩
    | descent s =>
        exact descend_ends (checked_of_validate w.validate) w.walkable
          (fun ids hids => NodeStore.resolveAll_finds k hids)
          (fun q candidates most => (ht q candidates most).noCircle) r q 0 (d := 0) rfl
          (by simp only [depthBound]; omega) fun _ h => by cases h

end Forest

namespace SearchContext
variable {c : SearchContext σ} {i : Index}

/-- A search that cannot be set up is not one round a circle. -/
theorem retriever_noCircle {e : Failure} (h : c.retriever i = .error e) : NoCircle e := by
  cases i with
  | tree f =>
      rcases bind_eq_error.mp h with h | ⟨_, _, h⟩
      · unfold traversal at h
        split at h
        · split at h
          · cases h
          · cases h; exact fun _ h => by cases h
        all_goals cases h
      · cases h
  | _ => cases h

/-- A search in a structure answers with stored nodes the structure refers to, and never reports a
circle. -/
theorem retriever_finds {r : Retriever σ} (k : c.store.Keyed) (built : ∀ f, i = .tree f → f.Built)
    (hr : c.retriever i = .ok r) (q : Query) : Finds c.store i.nodeIds (r q) := by
  cases i with
  | tree f =>
      obtain ⟨t, ht, hr⟩ := bind_eq_ok.mp hr
      cases hr
      exact Forest.retrieve_finds (built f rfl).wellFormed k (traversal_spares ht) _ q
  | keywordTable t => cases hr; exact KeywordTable.retrieve_finds k t _ _ q
  | list l => cases hr; exact NodeList.retrieve_finds k l _ _ q
  | vectors m => cases hr; exact VectorMap.retrieve_finds k m _ _ _ q
  | relations g => cases hr; exact RelationGraph.retrieve_finds k g _ _ q

end SearchContext
end CorpusIndex
