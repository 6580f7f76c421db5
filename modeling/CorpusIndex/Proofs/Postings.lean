import CorpusIndex.Index.Postings
import CorpusIndex.Proofs.NodeStore

/-!
# Postings and their nodes

Which ids postings file, which of them a document owns, and what is left after some are pruned.
-/
namespace CorpusIndex.Postings

variable {t : Postings} {doc id : String} {store : NodeStore} {doomed : SortedSet String}

/-- An id is filed somewhere. -/
theorem mem_nodeIds : id ∈ t.nodeIds ↔ ∃ keyword ids, t.get? keyword = some ids ∧ id ∈ ids := by
  simp only [nodeIds, SortedSet.mem_ofElems, List.mem_flatMap, SortedMap.mem_values, SortedSet.mem_elems]
  constructor
  · rintro ⟨ids, ⟨keyword, hkeyword⟩, hid⟩
    exact ⟨keyword, ids, hkeyword, hid⟩
  · rintro ⟨keyword, ids, hkeyword, hid⟩
    exact ⟨ids, ⟨keyword, hkeyword⟩, hid⟩

theorem mem_nodeIds_of_under {keyword : String} (h : id ∈ t.under keyword) : id ∈ t.nodeIds := by
  have hin := SortedSet.mem_elems.mp h
  rw [SortedMap.getD_eq] at hin
  cases hget : t.get? keyword with
  | none => simp [hget] at hin
  | some ids => exact mem_nodeIds.mpr ⟨keyword, ids, hget, by simpa [hget] using hin⟩

theorem ownedBy_of_stored (doc : String) (h : ∀ id ∈ t.nodeIds, ∃ n, store.nodes.get? id = some n) :
    ∃ doomed, t.ownedBy doc store = .ok doomed ∧ ∀ id, id ∈ doomed ↔
      id ∈ t.nodeIds ∧ ∃ n, store.nodes.get? id = some n ∧ n.document = some doc := by
  obtain ⟨ns, hns⟩ := NodeStore.resolvePairs_of_stored t.nodeIds.elems
    fun id hid => h id (SortedSet.mem_elems.mp hid)
  refine ⟨_, by rw [ownedBy, hns]; rfl, fun id => ?_⟩
  rw [SortedSet.mem_ofElems, (NodeStore.mem_ownedIds doc hns).2, SortedSet.mem_elems]

/-- Under a keyword the pruned ids are missing, and no keyword is left without ids. -/
theorem get?_prune {keyword : String} {ids : SortedSet String} :
    (t.prune doomed).get? keyword = some ids ↔ (∃ old, t.get? keyword = some old ∧
      SortedMap.filter old (fun id _ => !doomed.contains id) = ids) ∧ ids.isEmpty = false := by
  rw [prune, SortedMap.get?_filter_eq_some, SortedMap.get?_mapValues, Option.map_eq_some_iff,
    Bool.not_eq_true']

theorem mem_without {old : SortedSet String} :
    id ∈ SortedMap.filter old (fun id _ => !doomed.contains id) ↔ id ∈ old ∧ id ∉ doomed := by
  rw [SortedSet.mem_filter, Bool.not_eq_true', ← Bool.not_eq_true, SortedSet.contains_iff_mem]

theorem mem_nodeIds_prune : id ∈ (t.prune doomed).nodeIds ↔ id ∈ t.nodeIds ∧ id ∉ doomed := by
  simp only [mem_nodeIds, get?_prune]
  constructor
  · rintro ⟨keyword, _, ⟨⟨old, hold, rfl⟩, _⟩, hid⟩
    obtain ⟨hid, hout⟩ := mem_without.mp hid
    exact ⟨⟨keyword, old, hold, hid⟩, hout⟩
  · rintro ⟨⟨keyword, old, hold, hid⟩, hout⟩
    have hid' := mem_without.mpr ⟨hid, hout⟩
    exact ⟨keyword, _, ⟨⟨old, hold, rfl⟩, SortedSet.isEmpty_eq_false_iff.mpr ⟨id, hid'⟩⟩, hid'⟩

end CorpusIndex.Postings
