import CorpusIndex.Build.Relations
import CorpusIndex.Extract.Keywords
import CorpusIndex.Proofs.Action
import CorpusIndex.Proofs.Index.Commutation
import Mathlib.Data.List.Induction

/-!
# Keyword tables of a batch

Postings that keep no empty set are the table of a relation between keywords and ids (`Tabulates`), and the
relation decides them. Filing a node adds pairs to the relation and a deletion takes pairs out of it, so a
table that was built over a batch and then lost a document is the table over the rest of the batch.
-/
namespace CorpusIndex

variable {σ : Type} {store : NodeStore} {doc id : String} {batch : List Node}

namespace NodeStore

/-- Every node of the batch is stored, with its document. -/
def Holds (store : NodeStore) (batch : List Node) : Prop :=
  ∀ n ∈ batch, ∃ m, store.nodes.get? n.id = some m ∧ m.document = n.document

theorem Holds.owns (h : store.Holds batch) {n : Node} (hn : n ∈ batch) :
    store.owns doc n.id = (n.document == some doc) := by
  obtain ⟨m, hm, hdoc⟩ := h n hn
  rw [NodeStore.owns, hm, Option.any_some, hdoc]

theorem Holds.contains (h : store.Holds batch) {n : Node} (hn : n ∈ batch) :
    store.contains n.id = true := by
  obtain ⟨m, hm, _⟩ := h n hn
  exact contains_iff.mpr ⟨m, hm⟩

end NodeStore

/-- The nodes of a batch that come from elsewhere. -/
def withoutDocument (doc : String) (batch : List Node) : List Node :=
  batch.filter (fun n => !(n.document == some doc))

theorem mem_withoutDocument {n : Node} :
    n ∈ withoutDocument doc batch ↔ n ∈ batch ∧ n.document ≠ some doc := by
  simp [withoutDocument]

namespace Postings
variable {t u : Postings} {R S : String → String → Prop} {p : String → Bool} {k i : String}

theorem mem_getD : i ∈ t.getD k ∅ ↔ ∃ ids, t.get? k = some ids ∧ i ∈ ids := by
  rw [SortedMap.getD_eq]
  cases t.get? k <;> simp

/-- Under every keyword the ids related to it are filed, and a keyword without ids is not kept. -/
structure Tabulates (t : Postings) (R : String → String → Prop) : Prop where
  filed : ∀ k i, i ∈ t.getD k ∅ ↔ R k i
  inhabited : ∀ k ids, t.get? k = some ids → ∃ i, i ∈ ids

namespace Tabulates

theorem empty : Tabulates ∅ fun _ _ => False := by
  have hget (k : String) : (∅ : Postings).get? k = none := rfl
  refine ⟨fun k i => ?_, fun k ids h => ?_⟩
  · simp [mem_getD, hget]
  · rw [hget] at h
    cases h

/-- The relation decides the postings. -/
theorem unique (ht : t.Tabulates R) (hu : u.Tabulates S) (h : ∀ k i, R k i ↔ S k i) : t = u := by
  have hsame (k i : String) : (∃ ids, t.get? k = some ids ∧ i ∈ ids) ↔
      ∃ ids, u.get? k = some ids ∧ i ∈ ids := by
    rw [← mem_getD, ← mem_getD, ht.filed, hu.filed, h]
  refine SortedMap.ext_get? fun k => ?_
  cases hk : t.get? k with
  | none =>
      cases hk' : u.get? k with
      | none => rfl
      | some ids =>
          obtain ⟨i, hi⟩ := hu.inhabited k ids hk'
          obtain ⟨ids', hids', _⟩ := (hsame k i).mpr ⟨ids, hk', hi⟩
          cases hk.symm.trans hids'
  | some ids =>
      obtain ⟨i, hi⟩ := ht.inhabited k ids hk
      obtain ⟨ids', hids', _⟩ := (hsame k i).mp ⟨ids, hk, hi⟩
      have heq : ids = ids' := by
        refine SortedSet.ext fun j => ?_
        have hj := hsame k j
        simpa only [hk, hids', Option.some.injEq, exists_eq_left'] using hj
      rw [hids', heq]

theorem mem_nodeIds (h : t.Tabulates R) : id ∈ t.nodeIds ↔ ∃ k, R k id := by
  rw [Postings.mem_nodeIds]
  exact exists_congr fun k => mem_getD.symm.trans (h.filed k id)

theorem update (h : t.Tabulates R) (k id : String) :
    Tabulates (SortedMap.update t k ∅ (·.add id)) fun j i => R j i ∨ (j = k ∧ i = id) := by
  refine ⟨fun j i => ?_, fun j ids hj => ?_⟩
  · rw [mem_getD, ← h.filed]
    simp only [SortedMap.update, SortedMap.get?_insert_eq_some]
    by_cases hjk : j = k
    · subst hjk
      simp only [true_and, ne_eq, not_true_eq_false, false_and, or_false, exists_eq_left,
        SortedSet.mem_add]
      exact or_comm
    · simp [hjk, mem_getD]
  · rcases SortedMap.get?_insert_eq_some.mp hj with ⟨_, rfl⟩ | ⟨_, hj⟩
    · exact ⟨id, SortedSet.mem_add.mpr (.inl rfl)⟩
    · exact h.inhabited j ids hj

theorem file (h : t.Tabulates R) (keywords : List String) (id : String) :
    (t.file keywords id).Tabulates fun k i => R k i ∨ (k ∈ keywords ∧ i = id) := by
  induction keywords generalizing t R with
  | nil => simpa [Postings.file] using h
  | cons k keywords ih =>
      have hrest := ih (h.update k id)
      refine ⟨fun j i => (hrest.filed j i).trans ?_, hrest.inhabited⟩
      rw [List.mem_cons]
      tauto

theorem leaving (h : t.Tabulates R) (p : String → Bool) :
    (t.leaving p).Tabulates fun k i => R k i ∧ p i = false := by
  unfold Postings.leaving
  split
  next hnone =>
    refine ⟨fun k i => ?_, h.inhabited⟩
    rw [h.filed]
    refine (and_iff_left_of_imp fun hk => ?_).symm
    rw [← Bool.not_eq_true]
    exact fun hp => SortedSet.isEmpty_iff.mp hnone i (mem_among.mpr ⟨h.mem_nodeIds.mpr ⟨k, hk⟩, hp⟩)
  next =>
    refine ⟨fun k i => ?_, fun k ids hk => ?_⟩
    · rw [mem_getD, ← h.filed, mem_getD]
      constructor
      · rintro ⟨_, hids, hi⟩
        obtain ⟨⟨old, hold, rfl⟩, _⟩ := get?_prune.mp hids
        obtain ⟨hi, hout⟩ := mem_without.mp hi
        refine ⟨⟨old, hold, hi⟩, ?_⟩
        rw [← Bool.not_eq_true]
        exact fun hp => hout (mem_among.mpr ⟨Postings.mem_nodeIds.mpr ⟨k, old, hold, hi⟩, hp⟩)
      · rintro ⟨⟨old, hold, hi⟩, hp⟩
        have hi' : i ∈ SortedMap.filter old (fun id _ => !(t.among p).contains id) := by
          refine mem_without.mpr ⟨hi, fun hin => ?_⟩
          rw [(mem_among.mp hin).2] at hp
          cases hp
        exact ⟨_, get?_prune.mpr ⟨⟨old, hold, rfl⟩, SortedSet.isEmpty_eq_false_iff.mpr ⟨i, hi'⟩⟩, hi'⟩
    · exact SortedSet.isEmpty_eq_false_iff.mp (get?_prune.mp hk).2

end Tabulates
end Postings

namespace KeywordTable
variable {x : KeywordExtractor σ} {most : Nat} {keywords : String → List String}

/-- The table that files every node under the keywords of its text. -/
def ofBatch (keywords : String → List String) (id : String) (batch : List Node) : KeywordTable :=
  batch.foldl (fun t n => t.add (keywords n.text) n.id) { id }

theorem ofBatch_append (n : Node) :
    ofBatch keywords id (batch ++ [n]) = (ofBatch keywords id batch).add (keywords n.text) n.id := by
  simp [ofBatch]

theorem ofBatch_tabulates (keywords : String → List String) (id : String) (batch : List Node) :
    (ofBatch keywords id batch) = { id, table := (ofBatch keywords id batch).table } ∧
      (ofBatch keywords id batch).table.Tabulates
        fun k i => ∃ n ∈ batch, n.id = i ∧ k ∈ keywords n.text := by
  induction batch using List.reverseRecOn with
  | nil => exact ⟨rfl, by simpa [ofBatch] using Postings.Tabulates.empty⟩
  | append_singleton batch n ih =>
      obtain ⟨hrest, htable⟩ := ih
      rw [ofBatch_append]
      refine ⟨?_, ?_⟩
      · rw [hrest]
        rfl
      · have hfile := htable.file (keywords n.text) n.id
        refine ⟨fun k i => (hfile.filed k i).trans ?_, hfile.inhabited⟩
        simp only [List.mem_append, List.mem_singleton, or_and_right, exists_or, exists_eq_left]
        exact or_congr_right ⟨fun ⟨hk, hi⟩ => ⟨hi.symm, hk⟩, fun ⟨hi, hk⟩ => ⟨hk, hi.symm⟩⟩

/-- An extractor whose answers depend on the text only builds the table of the batch, in any state. -/
theorem build_run (hx : ∀ n ∈ batch, ∀ s, ((x.keywords n.text most).run s).1 = .ok (keywords n.text))
    (s : σ) : ((build x most id batch).run s).1 = .ok (ofBatch keywords id batch) := by
  have hone (n : Node) (hn : n ∈ batch) (s : σ) : ((do
      return (n.id, ← (x.keywords n.text most).external) : Action σ (String × List String)).run s).1 =
        .ok (n.id, keywords n.text) := by
    obtain ⟨s', hs'⟩ := run_bind_of_ok (external_run_of_ok (hx n hn s))
      fun ks => pure (n.id, ks)
    rw [hs']
    rfl
  obtain ⟨s', hs'⟩ := run_bind_of_ok (mapM_run hone s)
    fun found => pure (found.foldl (fun (t : KeywordTable) f => t.add f.2 f.1) { id })
  rw [build, insert, hs']
  exact congrArg Except.ok List.foldl_map

/-- The most frequent words are found without any collaborator. -/
theorem build_frequent (most : Nat) (id : String) (batch : List Node) :
    (build Keywords.frequentExtractor most id batch : Action σ KeywordTable) =
      pure (ofBatch (Keywords.frequent · most) id batch) := by
  have hwalk : (batch.mapM fun n => do
      return (n.id, ← ((Keywords.frequentExtractor (σ := σ)).keywords n.text most).external) :
        Action σ (List (String × List String))) =
      pure (batch.map fun n => (n.id, Keywords.frequent n.text most)) := List.mapM_pure ..
  rw [build, insert, hwalk, pure_bind, List.foldl_map]
  rfl

/-- Deleting a document undoes the filing of its nodes. -/
theorem deleteDocument_ofBatch (held : store.Holds batch) (doc : String)
    (keywords : String → List String) (id : String) :
    (Index.keywordTable (ofBatch keywords id batch)).Resolves store ∧
      ((Index.keywordTable (ofBatch keywords id batch)).deleteDocument doc store).1 =
        .keywordTable (ofBatch keywords id (withoutDocument doc batch)) := by
  obtain ⟨hbuilt, htable⟩ := ofBatch_tabulates keywords id batch
  obtain ⟨hbuilt', htable'⟩ := ofBatch_tabulates keywords id (withoutDocument doc batch)
  have hstored : (Index.keywordTable (ofBatch keywords id batch)).Resolves store := by
    intro i hi
    obtain ⟨k, n, hn, rfl, _⟩ := htable.mem_nodeIds.mp (SortedSet.mem_elems.mp hi)
    exact held.contains hn
  refine ⟨hstored, ?_⟩
  have hsame : (ofBatch keywords id batch).table.leaving (store.owns doc) =
      (ofBatch keywords id (withoutDocument doc batch)).table := by
    refine (htable.leaving (store.owns doc)).unique htable' fun k i => ?_
    constructor
    · rintro ⟨⟨n, hn, rfl, hk⟩, hother⟩
      refine ⟨n, mem_withoutDocument.mpr ⟨hn, fun hdoc => ?_⟩, rfl, hk⟩
      simp [held.owns hn, hdoc] at hother
    · rintro ⟨n, hn, rfl, hk⟩
      obtain ⟨hn, hdoc⟩ := mem_withoutDocument.mp hn
      exact ⟨⟨n, hn, rfl, hk⟩, by simp [held.owns hn, hdoc]⟩
  rw [deleteDocument_leaves hstored, hsame, hbuilt, hbuilt']

end KeywordTable
end CorpusIndex
