import CorpusIndex.Index
import CorpusIndex.Proofs.Forest.Edits
import CorpusIndex.Proofs.Postings
import CorpusIndex.Proofs.VectorMap

/-!
# What structures refer to after a deletion

Five kinds of structures drop a document, each by its own rule. `DropsFrom` says what the rules have in
common: the deletion succeeds or finds nothing of the document, the structure stays consistent in itself,
and of the ids it referred to it keeps those that belong to other documents.
-/
namespace CorpusIndex

/-- Vectors of stored nodes are listed for the documents of their nodes. -/
def VectorMap.FiledIn (store : NodeStore) (m : VectorMap) : Prop :=
  ∀ v id n, m.nodes.get? v = some id → store.nodes.get? id = some n →
    ∀ doc, m.Lists doc v ↔ n.document = some doc

namespace Index

/-- Every id the structure refers to is stored. -/
def Resolves (store : NodeStore) (i : Index) : Prop := ∀ id ∈ i.nodeIds, store.contains id = true

/-- What the operations of a tree or a vector map keep, with the vectors filed under their documents. -/
def Sound (store : NodeStore) : Index → Prop
  | .tree f => f.WellFormed
  | .vectors m => m.Filed ∧ m.FiledIn store
  | _ => True

/-- The outcome `r` of deleting a document from a structure that referred to `ids`. -/
structure DropsFrom (store : NodeStore) (doc : String) (ids : List String)
    (r : Index × Except Failure (List String)) : Prop where
  outcome : (∃ dropped, r.2 = .ok dropped) ∨ ∃ a, r.2 = .error (.absent a)
  consistent : r.1.checkStructure = .ok ()
  subset : ∀ id ∈ r.1.nodeIds, id ∈ ids ∧ ∀ n, store.nodes.get? id = some n → n.document ≠ some doc
  keeps : ∀ id n d, id ∈ ids → store.nodes.get? id = some n → n.document = some d → d ≠ doc →
    id ∈ r.1.nodeIds

variable {store : NodeStore} {doc id : String} {i : Index} {ids : List String}

theorem dropsFrom_tree {f : Forest} (w : f.WellFormed) (h : (Index.tree f).Resolves store) :
    DropsFrom store doc f.nodeIds ((Index.tree f).deleteDocument doc store) := by
  have hres (y : String) (hy : f.contains y = true) : ∃ n, store.nodes.get? y = some n :=
    NodeStore.contains_iff.mp (h y (w.mem_nodeIds.mpr hy))
  rcases w.deleteDocument_without doc store with ⟨e, hd⟩ |
      ⟨g, dropped, hd, hg, hdropped, hall⟩
  · rcases w.deleteDocument_of_stored doc hres with ⟨habs, hnone⟩ | ⟨g, dropped, hok⟩
    · simp only [deleteDocument, habs]
      exact ⟨.inr ⟨_, rfl⟩, w.validate, fun y hy => ⟨hy, fun n => hnone y n (w.mem_nodeIds.mp hy)⟩,
        fun y _ _ hy _ _ _ => hy⟩
    · cases hd.symm.trans hok
  · simp only [deleteDocument, hd]
    refine ⟨.inl ⟨dropped, rfl⟩, hg.wellFormed.validate, fun y hy => ?_, fun y n d hy hn hdoc hne => ?_⟩
    · obtain ⟨hout, hin⟩ := (hg.contains_iff w).mp (hg.wellFormed.mem_nodeIds.mp hy)
      exact ⟨w.mem_nodeIds.mpr hin, fun n hn hdoc => hout (hall y n hin hn hdoc)⟩
    · refine hg.wellFormed.mem_nodeIds.mpr ((hg.contains_iff w).mpr ⟨fun hin => ?_, w.mem_nodeIds.mp hy⟩)
      obtain ⟨_, m, hm, hm'⟩ := hdropped y hin
      cases hn.symm.trans hm
      rcases hm' with hm' | hm'
      · exact hne (Option.some.inj (hdoc.symm.trans hm'))
      · cases hdoc.symm.trans hm'

theorem dropsFrom_list {l : NodeList} (h : (Index.list l).Resolves store) :
    DropsFrom store doc l.nodes ((Index.list l).deleteDocument doc store) := by
  obtain ⟨ns, hns⟩ := NodeStore.resolvePairs_of_stored l.nodes
    fun y hy => NodeStore.contains_iff.mp (h y hy)
  have hmem := (NodeStore.mem_ownedIds doc hns).2
  rw [deleteDocument, NodeList.deleteDocument, hns, ok_bind]
  dsimp only
  split
  next hnil =>
    refine ⟨.inr ⟨_, rfl⟩, rfl, fun y hy => ⟨hy, fun n hn hdoc => ?_⟩, fun y _ _ hy _ _ _ => hy⟩
    have := (hmem y).mpr ⟨hy, n, hn, hdoc⟩
    simp [List.isEmpty_iff.mp hnil] at this
  next =>
    have hkept (y : String) : y ∈ (l.nodes.filter fun y =>
        !((ns.filter (fun n => n.2.document == some doc)).map (·.1)).contains y) ↔
          y ∈ l.nodes ∧ ∀ n, store.nodes.get? y = some n → n.document ≠ some doc := by
      rw [List.mem_filter, Bool.not_eq_true', ← Bool.not_eq_true, List.contains_iff_mem, hmem]
      refine and_congr_right fun hy => ?_
      simp [hy]
    refine ⟨.inl ⟨_, rfl⟩, rfl, fun y hy => (hkept y).mp hy, fun y n d hy hn hdoc hne => ?_⟩
    refine (hkept y).mpr ⟨hy, fun m hm hm' => hne ?_⟩
    cases hn.symm.trans hm
    exact Option.some.inj (hdoc.symm.trans hm')

/-- Structures over postings drop the ids a document owns, or have none to drop. -/
theorem dropsFrom_postings {t : Postings} {r : Index × Except Failure (List String)}
    {doomed : SortedSet String} (hmem : ∀ id, id ∈ doomed ↔
      id ∈ t.nodeIds ∧ ∃ n, store.nodes.get? id = some n ∧ n.document = some doc)
    (hok : r.1.checkStructure = .ok ())
    (hr : (doomed.isEmpty = true ∧ r.1.nodeIds = t.nodeIds.elems ∧ ∃ a, r.2 = .error (.absent a)) ∨
      (r.1.nodeIds = (t.prune doomed).nodeIds.elems ∧ ∃ dropped, r.2 = .ok dropped)) :
    DropsFrom store doc t.nodeIds.elems r := by
  have hother {y : String} {n : Node} {d : String} (hn : store.nodes.get? y = some n)
      (hdoc : n.document = some d) (hne : d ≠ doc) : y ∉ doomed := by
    intro hin
    obtain ⟨_, m, hm, hm'⟩ := (hmem y).mp hin
    cases hn.symm.trans hm
    exact hne (Option.some.inj (hdoc.symm.trans hm'))
  rcases hr with ⟨hnil, hids, a, ha⟩ | ⟨hids, dropped, hd⟩
  · refine ⟨.inr ⟨a, ha⟩, hok, fun y hy => ?_, fun y _ _ hy _ _ _ => hids ▸ hy⟩
    rw [hids] at hy
    refine ⟨hy, fun n hn hdoc => SortedSet.isEmpty_iff.mp hnil y ?_⟩
    exact (hmem y).mpr ⟨SortedSet.mem_elems.mp hy, n, hn, hdoc⟩
  · refine ⟨.inl ⟨dropped, hd⟩, hok, fun y hy => ?_, fun y n d hy hn hdoc hne => ?_⟩
    · rw [hids, SortedSet.mem_elems, Postings.mem_nodeIds_prune] at hy
      refine ⟨SortedSet.mem_elems.mpr hy.1, fun n hn hdoc => hy.2 ((hmem y).mpr ⟨hy.1, n, hn, hdoc⟩)⟩
    · rw [hids, SortedSet.mem_elems, Postings.mem_nodeIds_prune]
      exact ⟨SortedSet.mem_elems.mp hy, hother hn hdoc hne⟩

theorem dropsFrom_keywordTable {t : KeywordTable} (h : (Index.keywordTable t).Resolves store) :
    DropsFrom store doc t.nodeIds ((Index.keywordTable t).deleteDocument doc store) := by
  obtain ⟨doomed, hown, hmem⟩ := Postings.ownedBy_of_stored doc fun y hy =>
    NodeStore.contains_iff.mp (h y (SortedSet.mem_elems.mpr hy))
  simp only [deleteDocument, KeywordTable.deleteDocument, hown, bind, Except.bind]
  split
  next hnil => exact dropsFrom_postings hmem rfl (.inl ⟨hnil, rfl, _, rfl⟩)
  next => exact dropsFrom_postings hmem rfl (.inr ⟨rfl, _, rfl⟩)

theorem dropsFrom_relations {g : RelationGraph} (h : (Index.relations g).Resolves store) :
    DropsFrom store doc g.nodeIds ((Index.relations g).deleteDocument doc store) := by
  obtain ⟨doomed, hown, hmem⟩ := Postings.ownedBy_of_stored doc fun y hy =>
    NodeStore.contains_iff.mp (h y (SortedSet.mem_elems.mpr hy))
  simp only [deleteDocument, RelationGraph.deleteDocument, hown, bind, Except.bind]
  split
  next hnil => exact dropsFrom_postings hmem rfl (.inl ⟨hnil, rfl, _, rfl⟩)
  next => exact dropsFrom_postings hmem rfl (.inr ⟨rfl, _, rfl⟩)

theorem dropsFrom_vectors {m : VectorMap} (hm : m.Filed) (hf : m.FiledIn store)
    (h : (Index.vectors m).Resolves store) :
    DropsFrom store doc m.nodeIds ((Index.vectors m).deleteDocument doc store) := by
  have hstored {v y : String} (hv : m.nodes.get? v = some y) : ∃ n, store.nodes.get? y = some n :=
    NodeStore.contains_iff.mp (h y (SortedMap.mem_values.mpr ⟨v, hv⟩))
  cases hd : m.deleteDocument doc with
  | error e =>
      obtain ⟨rfl, hnone⟩ := VectorMap.deleteDocument_error hd
      simp only [deleteDocument, hd, afterDeletion]
      refine ⟨.inr ⟨_, rfl⟩, hm.validate, fun y hy => ⟨hy, fun n hn hdoc => ?_⟩, fun y _ _ hy _ _ _ => hy⟩
      obtain ⟨v, hv⟩ := SortedMap.mem_values.mp hy
      exact hnone v ((hf v y n hv hn doc).mpr hdoc)
  | ok r =>
      obtain ⟨m', vs⟩ := r
      obtain ⟨_, hnodes, _, _⟩ := VectorMap.deleteDocument_eq_ok hd
      simp only [deleteDocument, hd, afterDeletion]
      refine ⟨.inl ⟨vs, rfl⟩, (hm.deleteDocument hd).validate, fun y hy => ?_,
        fun y n d hy hn hdoc hne => ?_⟩
      · obtain ⟨v, hv⟩ := SortedMap.mem_values.mp hy
        obtain ⟨hout, hv⟩ := (hnodes v y).mp hv
        exact ⟨SortedMap.mem_values.mpr ⟨v, hv⟩, fun n hn hdoc => hout ((hf v y n hv hn doc).mpr hdoc)⟩
      · obtain ⟨v, hv⟩ := SortedMap.mem_values.mp hy
        refine SortedMap.mem_values.mpr ⟨v, (hnodes v y).mpr ⟨fun hl => hne ?_, hv⟩⟩
        exact Option.some.inj (hdoc.symm.trans ((hf v y n hv hn doc).mp hl))

/-- Every sound structure of stored nodes drops a document as its kind does. -/
theorem dropsFrom (doc : String) (hs : i.Sound store) (h : i.Resolves store) :
    DropsFrom store doc i.nodeIds (i.deleteDocument doc store) := by
  cases i with
  | tree f => exact dropsFrom_tree hs h
  | keywordTable t => exact dropsFrom_keywordTable h
  | list l => exact dropsFrom_list h
  | vectors m => exact dropsFrom_vectors hs.1 hs.2 h
  | relations g => exact dropsFrom_relations h

/-- The check fails exactly where an id of the structure does not resolve. -/
theorem validate_iff (hc : i.checkStructure = .ok ()) : i.validate store = .ok () ↔ i.Resolves store := by
  have hone (id : String) : (do let _ ← store.resolve id : Except Failure Unit) = .ok () ↔
      store.contains id = true := by
    rw [NodeStore.contains_iff, bind_eq_ok]
    exact ⟨fun ⟨n, hn, _⟩ => ⟨n, NodeStore.resolve_eq_ok.mp hn⟩,
      fun ⟨n, hn⟩ => ⟨n, NodeStore.resolve_eq_ok.mpr hn, rfl⟩⟩
  simp only [validate, hc, bind_eq_ok, forM_eq_ok_iff, Resolves, ← hone]
  simp

end Index
end CorpusIndex
