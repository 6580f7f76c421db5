import CorpusIndex.Proofs.Corpus.Stranded
import CorpusIndex.Proofs.Indexing.Undone
import CorpusIndex.Proofs.Ingest.Chunks

/-!
# A root over other structures

Structures with summaries are put under a list of the nodes that stand for them. If their names and those of
the nodes are new, this does not fail, and the corpus checks out (`Rootable`).
-/
namespace CorpusIndex

/-! ### Nodes that stand for indices -/

/-- The node that stands for an index with a summary. -/
def standIn (i : Index) : Node := Node.standingFor (standInId i.id) (i.summary.getD "") i.id

theorem standIns_of_summarized {l : List Index} (h : ∀ i ∈ l, i.summary.isSome = true) :
    standIns l = .ok (l.map standIn) := by
  refine mapM_eq_ok fun i hi => ?_
  obtain ⟨text, htext⟩ := Option.isSome_iff_exists.mp (h i hi)
  simp [htext, standIn]

theorem map_id_standIn (l : List Index) : (l.map standIn).map (·.id) = (l.map (·.id)).map standInId := by
  simp [standIn, Node.standingFor]

namespace IndexStore
variable {l : List Index} {store : IndexStore} {key : String} {i : Index}

theorem indices_foldl_put :
    (l.foldl put store).indices = l.foldl (fun m i => m.insert i.id i) store.indices := by
  induction l generalizing store with
  | nil => rfl
  | cons i l ih => exact ih

/-- Structures of new names enter one after another. -/
theorem addAll_of_new (hnd : (l.map (·.id)).Nodup) (hnew : ∀ i ∈ l, store.indices.contains i.id = false) :
    l.foldlM add store = .ok (l.foldl put store) := by
  induction l generalizing store with
  | nil => rfl
  | cons i l ih =>
      obtain ⟨hi, hnd⟩ := List.nodup_cons.mp hnd
      have hadd : store.add i = .ok (store.put i) := by
        rw [add, hnew i (by simp)]
        rfl
      rw [List.foldlM_cons, hadd, ok_bind, ih hnd fun j hj => ?_]
      · rfl
      · have hne : j.id ≠ i.id := fun heq => hi (List.mem_map.mpr ⟨j, hj, heq⟩)
        rw [put, SortedMap.contains, SortedMap.get?_insert_of_ne _ _ hne]
        exact hnew j (by simp [hj])

theorem get?_putAll (hnd : (l.map (·.id)).Nodup) :
    (l.foldl put {}).indices.get? key = some i ↔ i ∈ l ∧ i.id = key := by
  rw [indices_foldl_put, SortedMap.get?_foldl_insert Index.id (fun i => i) hnd]
  simp

end IndexStore

/-! ### A root over other structures -/

/-- The list refers to all other structures, each through one node that stands for it. -/
def Corpus.Roots (c : Corpus) (root : NodeList) : Prop := ∃ others : List String, others.Nodup ∧
  (∀ name, name ∈ others ↔ name ≠ root.id ∧ ∃ i, c.indices.indices.get? name = some i) ∧
  root.nodes = others.map standInId ∧
  ∀ name ∈ others, ∃ n, c.store.nodes.get? (standInId name) = some n ∧ n.index = some name

/-- Structures that can be put under a root: their names are new, each has a summary and checks out, and no
stored node has the id of one that stands for an index. -/
structure Rootable (root : String) (children : List Index) (store : NodeStore) : Prop where
  nodup : (children.map (·.id)).Nodup
  free : root ∉ children.map (·.id)
  summarized : ∀ i ∈ children, i.summary.isSome = true
  unused : ∀ name, store.contains (standInId name) = false
  consistent : ∀ i ∈ children, i.checkStructure = .ok ()
  resolves : ∀ i ∈ children, i.Resolves store

/-- The list of the nodes that stand for the structures. -/
def rootOver (root : String) (children : List Index) : NodeList := .ofBatch root (children.map standIn)

/-- The structures under a root, with the nodes that stand for them in the store. -/
def Corpus.underRoot (root : String) (children : List Index) (store : NodeStore) : Corpus where
  store := (children.map standIn).foldl NodeStore.put store
  indices := (children ++ [Index.list (rootOver root children)]).foldl IndexStore.put {}

namespace Rootable
variable {root key : String} {children : List Index} {store : NodeStore} {i : Index}
  (h : Rootable root children store)
include h

theorem nodup_standIns : ((children.map standIn).map (·.id)).Nodup := by
  rw [map_id_standIn]
  exact h.nodup.map fun _ _ => standInId_injective

theorem rootOver_eq :
    rootOver root children = { id := root, nodes := (children.map (·.id)).map standInId } := by
  rw [rootOver, NodeList.ofBatch_eq root h.nodup_standIns, map_id_standIn]

theorem add_standIns :
    store.add (children.map standIn) false = .ok (Corpus.underRoot root children store).store := by
  refine NodeStore.add_of_fresh h.nodup_standIns fun n hn => ?_
  obtain ⟨i, _, rfl⟩ := List.mem_map.mp hn
  exact h.unused i.id

theorem nodup_names : ((children ++ [Index.list (rootOver root children)]).map (·.id)).Nodup := by
  have hid : (Index.list (rootOver root children)).id = root := by rw [h.rootOver_eq]; rfl
  rw [List.map_append, List.map_singleton, hid]
  exact h.nodup.append (List.nodup_singleton root) (by simpa using h.free)

theorem add_structures : (children ++ [Index.list (rootOver root children)]).foldlM IndexStore.add {} =
    .ok (Corpus.underRoot root children store).indices := IndexStore.addAll_of_new h.nodup_names fun _ _ => rfl

theorem get?_underRoot : (Corpus.underRoot root children store).indices.indices.get? key = some i ↔
    (i ∈ children ∧ i.id = key) ∨ (i = .list (rootOver root children) ∧ key = root) := by
  have hid : (Index.list (rootOver root children)).id = root := by rw [h.rootOver_eq]; rfl
  rw [Corpus.underRoot, IndexStore.get?_putAll h.nodup_names, List.mem_append, List.mem_singleton,
    or_and_right]
  refine or_congr_right (and_congr_right ?_)
  rintro rfl
  rw [hid, eq_comm]

theorem contains_underRoot {x : String} : (Corpus.underRoot root children store).store.contains x = true ↔
    (∃ i ∈ children, x = standInId i.id) ∨ store.contains x = true := by
  rw [Corpus.underRoot, NodeStore.contains_foldl_put h.nodup_standIns, map_id_standIn, List.map_map,
    List.mem_map]
  exact or_congr_left (exists_congr fun i => and_congr_right fun _ => eq_comm)

/-- The corpus checks out. -/
theorem valid_underRoot : (Corpus.underRoot root children store).validate = .ok () := by
  have hcheck (key : String) (i : Index)
      (hi : (Corpus.underRoot root children store).indices.indices.get? key = some i) :
      i.checkStructure = .ok () := by
    rcases h.get?_underRoot.mp hi with ⟨hi, _⟩ | ⟨rfl, _⟩
    · exact h.consistent i hi
    · rfl
  refine (Corpus.validate_iff hcheck).mpr fun key i hi x hx => h.contains_underRoot.mpr ?_
  rcases h.get?_underRoot.mp hi with ⟨hi, _⟩ | ⟨rfl, _⟩
  · exact .inr (h.resolves i hi x hx)
  · rw [h.rootOver_eq] at hx
    obtain ⟨name, hname, rfl⟩ := List.mem_map.mp hx
    obtain ⟨j, hj, rfl⟩ := List.mem_map.mp hname
    exact .inl ⟨j, hj, rfl⟩

theorem roots_underRoot : (Corpus.underRoot root children store).Roots (rootOver root children) := by
  rw [h.rootOver_eq]
  refine ⟨children.map (·.id), h.nodup, fun name => ?_, rfl, fun name hname => ?_⟩
  · simp only [h.get?_underRoot, List.mem_map]
    constructor
    · rintro ⟨i, hi, rfl⟩
      exact ⟨fun heq => h.free (heq ▸ List.mem_map_of_mem hi), i, .inl ⟨hi, rfl⟩⟩
    · rintro ⟨hne, i, ⟨hi, hid⟩ | ⟨_, hname⟩⟩
      · exact ⟨i, hi, hid⟩
      · exact (hne hname).elim
  · obtain ⟨i, hi, rfl⟩ := List.mem_map.mp hname
    refine ⟨standIn i, (NodeStore.get?_foldl_put h.nodup_standIns).mpr ?_, rfl⟩
    exact .inl ⟨List.mem_map_of_mem hi, rfl⟩

end Rootable

end CorpusIndex
