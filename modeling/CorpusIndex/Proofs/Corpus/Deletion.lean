import CorpusIndex.Corpus
import CorpusIndex.Proofs.Index.Deletion

/-!
# A document leaves a corpus

Every structure is replaced by what its own deletion leaves, and the store loses the document's nodes
together with the derived nodes that a tree has dropped.
-/
namespace CorpusIndex.Corpus

variable {c c' : Corpus} {doc id key : String} {store s t : NodeStore} {d d' : Deletion}
  {l : List (String × Index)} {ids : List String} {n : Node} {dropped : SortedMap String (List String)}

/-- Deleting the document takes `id` out of some tree. -/
def TreeDrops (c : Corpus) (doc id : String) : Prop :=
  ∃ key f ids, c.indices.indices.get? key = some (.tree f) ∧
    (f.deleteDocument doc c.store).2 = .ok ids ∧ id ∈ ids

/-- The deletion from one structure succeeds, or finds nothing of the document. -/
def Passes (r : Index × Except Failure (List String)) : Prop :=
  (∃ ids, r.2 = .ok ids) ∨ ∃ a, r.2 = .error (.absent a)

/-! ### Structures -/

theorem deleteFromIndices_eq_ok (h : deleteFromIndices doc store d l = .ok d') :
    d'.indices = l.foldl (fun m e => m.insert e.1 (e.2.deleteDocument doc store).1) d.indices ∧
      ∀ id, id ∈ d'.treeIds ↔ id ∈ d.treeIds ∨
        ∃ key f ids, (key, Index.tree f) ∈ l ∧ (f.deleteDocument doc store).2 = .ok ids ∧ id ∈ ids := by
  induction l generalizing d with
  | nil =>
      cases h
      simp
  | cons e l ih =>
      obtain ⟨key, i⟩ := e
      unfold deleteFromIndices at h
      split at h
      next j ids hd =>
        obtain ⟨hindices, htrees⟩ := ih h
        refine ⟨by rw [hindices, List.foldl_cons, hd], fun id => ?_⟩
        rw [htrees]
        cases i with
        | tree f =>
            have hf : (f.deleteDocument doc store).2 = .ok ids := congrArg Prod.snd hd
            simp only [List.mem_append, List.mem_cons, Prod.mk.injEq, Index.tree.injEq]
            constructor
            · rintro ((hid | hid) | ⟨k, g, js, hin, hg⟩)
              · exact .inl hid
              · exact .inr ⟨key, f, ids, .inl ⟨rfl, rfl⟩, hf, hid⟩
              · exact .inr ⟨k, g, js, .inr hin, hg⟩
            · rintro (hid | ⟨k, g, js, ⟨rfl, rfl⟩ | hin, hg, hid⟩)
              · exact .inl (.inl hid)
              · cases hf.symm.trans hg
                exact .inl (.inr hid)
              · exact .inr ⟨k, g, js, hin, hg, hid⟩
        | _ => simp
      next j a hd =>
        obtain ⟨hindices, htrees⟩ := ih h
        refine ⟨by rw [hindices, List.foldl_cons, hd], fun id => ?_⟩
        rw [htrees]
        refine or_congr_right ⟨?_, ?_⟩
        · rintro ⟨k, g, js, hin, hg⟩
          exact ⟨k, g, js, by simp [hin], hg⟩
        · rintro ⟨k, g, js, hin, hg, hid⟩
          rcases List.mem_cons.mp hin with heq | hin
          · cases heq
            have hf : (g.deleteDocument doc store).2 = .error (.absent a) := congrArg Prod.snd hd
            cases hf.symm.trans hg
          · exact ⟨k, g, js, hin, hg, hid⟩
      next => cases h

theorem deleteFromIndices_of_passes (h : ∀ e ∈ l, Passes (e.2.deleteDocument doc store)) :
    ∃ d', deleteFromIndices doc store d l = .ok d' := by
  induction l generalizing d with
  | nil => exact ⟨d, rfl⟩
  | cons e l ih =>
      obtain ⟨key, i⟩ := e
      unfold deleteFromIndices
      have hrest : ∀ e ∈ l, Passes (e.2.deleteDocument doc store) := fun e he => h e (by simp [he])
      have hi : Passes (i.deleteDocument doc store) := h (key, i) (by simp)
      split
      next => exact ih hrest
      next => exact ih hrest
      next e hne hd =>
        rw [hd] at hi
        rcases hi with ⟨_, hi⟩ | ⟨a, hi⟩
        · cases hi
        · cases hi
          exact (hne a rfl).elim

/-! ### The store -/

theorem eraseAll_eq_ok (h : eraseAll s ids = .ok t) :
    t.nodes.get? id = some n ↔ id ∉ ids ∧ s.nodes.get? id = some n := by
  induction ids generalizing s with
  | nil =>
      cases h
      simp
  | cons i ids ih =>
      obtain ⟨⟨u, m⟩, hu, h⟩ := bind_eq_ok.mp h
      rw [ih h, NodeStore.erase_eq_ok hu, SortedMap.get?_erase_eq_some, List.mem_cons]
      tauto

theorem eraseAll_of_stored (hnd : ids.Nodup) (h : ∀ id ∈ ids, s.contains id = true) :
    ∃ t, eraseAll s ids = .ok t := by
  induction ids generalizing s with
  | nil => exact ⟨s, rfl⟩
  | cons i ids ih =>
      obtain ⟨hi, hnd⟩ := List.nodup_cons.mp hnd
      obtain ⟨n, hn⟩ := NodeStore.contains_iff.mp (h i (by simp))
      obtain ⟨t, ht⟩ := ih (s := ⟨s.nodes.erase i⟩) hnd fun j hj => by
        obtain ⟨m, hm⟩ := NodeStore.contains_iff.mp (h j (by simp [hj]))
        refine NodeStore.contains_iff.mpr ⟨m, SortedMap.get?_erase_eq_some.mpr ⟨?_, hm⟩⟩
        rintro rfl
        exact hi hj
      refine ⟨t, ?_⟩
      rw [eraseAll, NodeStore.erase, NodeStore.node_eq_ok.mpr hn]
      exact ht

theorem isDerived_iff : c.isDerived id = true ↔
    ∃ n, c.store.nodes.get? id = some n ∧ n.document = none := by
  unfold isDerived
  cases c.store.nodes.get? id <;> simp

/-! ### Both -/

/-- Every structure is replaced by what its own deletion leaves. -/
theorem indices_deleteDocument (h : c.deleteDocument doc = .ok (c', dropped)) (key : String)
    {j : Index} :
    c'.indices.indices.get? key = some j ↔
      ∃ i, c.indices.indices.get? key = some i ∧ (i.deleteDocument doc c.store).1 = j := by
  unfold deleteDocument at h
  split at h
  · cases h
  obtain ⟨d, hd, h⟩ := bind_eq_ok.mp h
  obtain ⟨⟨s, ids⟩, _, h⟩ := bind_eq_ok.mp h
  obtain ⟨t, _, h⟩ := bind_eq_ok.mp h
  cases pure_eq_ok.mp h
  obtain ⟨hindices, _⟩ := deleteFromIndices_eq_ok hd
  change d.indices.get? key = some j ↔ _
  rw [hindices]
  exact SortedMap.get?_foldl_insert_toList (g := fun i : Index => (i.deleteDocument doc c.store).1)

/-- What a deletion leaves of the structures and of the store. -/
theorem deleteDocument_eq_ok (k : c.store.Keyed) (h : c.deleteDocument doc = .ok (c', dropped)) :
    (∀ key j, c'.indices.indices.get? key = some j ↔
      ∃ i, c.indices.indices.get? key = some i ∧ (i.deleteDocument doc c.store).1 = j) ∧
    ∀ id n, c'.store.nodes.get? id = some n ↔ c.store.nodes.get? id = some n ∧
      n.document ≠ some doc ∧ (n.document = none → ¬ c.TreeDrops doc id) := by
  refine ⟨fun key j => indices_deleteDocument h key, fun id n => ?_⟩
  unfold deleteDocument at h
  split at h
  · cases h
  obtain ⟨d, hd, h⟩ := bind_eq_ok.mp h
  obtain ⟨⟨s, ids⟩, hs, h⟩ := bind_eq_ok.mp h
  obtain ⟨t, ht, h⟩ := bind_eq_ok.mp h
  cases pure_eq_ok.mp h
  obtain ⟨_, htrees⟩ := deleteFromIndices_eq_ok hd
  have hdrops (id : String) : id ∈ d.treeIds ↔ c.TreeDrops doc id := by
    simp only [htrees, List.not_mem_nil, false_or, TreeDrops, SortedMap.get?_eq_some_iff]
  change t.nodes.get? id = some n ↔ _
  rw [eraseAll_eq_ok ht, NodeStore.deleteDocument_eq_ok k hs, SortedSet.mem_elems,
    SortedSet.mem_ofElems, List.mem_filter, hdrops, isDerived_iff]
  constructor
  · rintro ⟨hout, hn, hdoc⟩
    exact ⟨hn, hdoc, fun hnone hdrop => hout ⟨hdrop, n, hn, hnone⟩⟩
  · rintro ⟨hn, hdoc, hkeep⟩
    refine ⟨?_, hn, hdoc⟩
    rintro ⟨hdrop, m, hm, hnone⟩
    cases hn.symm.trans hm
    exact hkeep hnone hdrop

/-- A document with a stored node can be deleted where every structure lets it go. -/
theorem deleteDocument_of_passes (k : c.store.Keyed) (hn : c.store.nodes.get? id = some n)
    (hdoc : n.document = some doc) (h : ∀ key i, c.indices.indices.get? key = some i →
      Passes (i.deleteDocument doc c.store)) :
    ∃ c' dropped, c.deleteDocument doc = .ok (c', dropped) := by
  have hsome : (c.store.ofDocument doc).isEmpty = false := by
    cases hnil : (c.store.ofDocument doc).isEmpty with
    | false => rfl
    | true =>
        have hm : n ∈ c.store.ofDocument doc := NodeStore.mem_ofDocument.mpr ⟨⟨id, hn⟩, hdoc⟩
        simp [List.isEmpty_iff.mp hnil] at hm
  obtain ⟨d, hd⟩ := deleteFromIndices_of_passes (d := { indices := c.indices.indices })
    (l := c.indices.indices.toList) fun e he => h e.1 e.2 (SortedMap.get?_eq_some_iff.mpr he)
  obtain ⟨s, ids, hs⟩ := NodeStore.deleteDocument_of_mem hn hdoc
  have hstored : ∀ id ∈ (SortedSet.ofElems (d.treeIds.filter c.isDerived)).elems,
      s.contains id = true := by
    intro id hid
    rw [SortedSet.mem_elems, SortedSet.mem_ofElems, List.mem_filter, isDerived_iff] at hid
    obtain ⟨_, m, hm, hnone⟩ := hid
    refine NodeStore.contains_iff.mpr ⟨m, (NodeStore.deleteDocument_eq_ok k hs id m).mpr ⟨hm, ?_⟩⟩
    simp [hnone]
  obtain ⟨t, ht⟩ := eraseAll_of_stored (SortedSet.elems_nodup _) hstored
  refine ⟨⟨t, ⟨d.indices⟩⟩, d.dropped, ?_⟩
  simp only [deleteDocument, hsome, Bool.false_eq_true, if_false, hd, hs, ht, ok_bind]
  rfl

end CorpusIndex.Corpus
