import CorpusIndex.Proofs.Index.Commutation
import CorpusIndex.Proofs.Vectors.Edits

/-!
# What a deletion leaves alone

A deletion of a document goes by a different rule in each kind of structure. `Index.SameFor p` says, kind by
kind, that two structures refer to the ids of a kind `p` in the same way: at the same places of a tree, in
the same order of a list, under the same keywords, by the same vectors. Every rule keeps this for the ids of
other documents, however the documents share summaries, keywords and relations.
-/
namespace CorpusIndex
open Relation

variable {store : NodeStore} {doc id : String} {p : String → Bool}

namespace NodeStore

/-- The node is stored and comes from a document other than `doc`. -/
def elsewhere (s : NodeStore) (doc id : String) : Bool :=
  (s.nodes.get? id).any fun n => n.document.any (· != doc)

theorem elsewhere_iff : store.elsewhere doc id = true ↔
    ∃ n d, store.nodes.get? id = some n ∧ n.document = some d ∧ d ≠ doc := by
  simp [elsewhere, Option.any_eq_true]

theorem not_owns_of_elsewhere (h : store.elsewhere doc id = true) : store.owns doc id = false := by
  obtain ⟨n, d, hn, hd, hne⟩ := elsewhere_iff.mp h
  rw [← Bool.not_eq_true, owns_iff]
  rintro ⟨m, hm, hdoc⟩
  cases hn.symm.trans hm
  exact hne (Option.some.inj (hd.symm.trans hdoc))

end NodeStore

/-! ### Kinds of structures -/

/-- The ids stand at the same places, and the same of them stand above one another. -/
structure Forest.SameFor (p : String → Bool) (f g : Forest) : Prop where
  nodes : ∀ q id, p id = true → (g.nodes.get? q = some id ↔ f.nodes.get? q = some id)
  positions : ∀ id, p id = true → g.positions.get? id = f.positions.get? id
  above : ∀ q r x y, p x = true → p y = true → f.nodes.get? q = some x → f.nodes.get? r = some y →
    (TransGen g.Edge q r ↔ TransGen f.Edge q r)

/-- The ids come in the same order, each as often. -/
def NodeList.SameFor (p : String → Bool) (l l' : NodeList) : Prop := l'.nodes.filter p = l.nodes.filter p

/-- The ids are filed under the same keywords. -/
def Postings.SameFor (p : String → Bool) (t t' : Postings) : Prop :=
  ∀ keyword id, p id = true → (id ∈ t'.under keyword ↔ id ∈ t.under keyword)

/-- The ids have the same vector ids, listed for the same documents, and the embeddings of these are the same
in the same order. -/
structure VectorMap.SameFor (p : String → Bool) (m m' : VectorMap) : Prop where
  nodes : ∀ v id, p id = true → (m'.nodes.get? v = some id ↔ m.nodes.get? v = some id)
  lists : ∀ v id, p id = true → m.nodes.get? v = some id → ∀ d, m'.Lists d v ↔ m.Lists d v
  embeddings : m'.embeddings.filter (fun e => (m.nodes.get? e.1).any p) =
    m.embeddings.filter (fun e => (m.nodes.get? e.1).any p)

/-- Structures of one kind that refer to the ids in the same way. -/
def Index.SameFor (p : String → Bool) : Index → Index → Prop
  | .tree f, .tree g => f.SameFor p g
  | .keywordTable t, .keywordTable t' => t.table.SameFor p t'.table
  | .list l, .list l' => l.SameFor p l'
  | .vectors m, .vectors m' => m.SameFor p m'
  | .relations g, .relations g' => g.table.SameFor p g'.table
  | _, _ => False

/-! ### Each rule -/

theorem Forest.sameFor_deleteDocument {f : Forest} (w : f.WellFormed)
    (hres : ∀ q y, f.nodes.get? q = some y → ∃ n, store.nodes.get? y = some n) :
    f.SameFor (store.elsewhere doc) (f.deleteDocument doc store).1 := by
  have hg := w.deleteDocument_prunes doc hres
  have hkept {q : ℕ} {y : String} (hy : store.elsewhere doc y = true) (hq : f.nodes.get? q = some y) :
      (f.deleteDocument doc store).1.nodes.get? q = some y := by
    have hstays : (f.deleteDocument doc store).1.Occupied q := by
      by_contra hgone
      obtain ⟨n, d, hn, hd, hne⟩ := NodeStore.elsewhere_iff.mp hy
      rcases (hg.gone_iff q ⟨y, hq⟩).mp hgone with ⟨y', m, d', hy', hm, hd', hin⟩ | ⟨⟨y', m, hy', hm, hd'⟩, _⟩
      · cases hq.symm.trans hy'
        cases hn.symm.trans hm
        cases hd.symm.trans hd'
        exact hne (List.mem_singleton.mp hin)
      · cases hq.symm.trans hy'
        cases hn.symm.trans hm
        cases hd.symm.trans hd'
    rw [hg.get?_nodes hstays, hq]
  have hnodes (q : ℕ) (y : String) (hy : store.elsewhere doc y = true) :
      (f.deleteDocument doc store).1.nodes.get? q = some y ↔ f.nodes.get? q = some y :=
    ⟨hg.nodes q y, hkept hy⟩
  refine ⟨hnodes, fun y hy => Option.ext fun q => ?_, fun q r x y hx hy hq hr => ?_⟩
  · rw [hg.wellFormed.inverse, w.inverse]
    exact hnodes q y hy
  · rw [hg.above]
    exact and_iff_left ⟨⟨x, hkept hx hq⟩, y, hkept hy hr⟩

theorem NodeList.sameFor_leaves (l : NodeList) (store : NodeStore) (doc : String) : l.SameFor
    (store.elsewhere doc) { l with nodes := l.nodes.filter fun id => !store.owns doc id } := by
  rw [NodeList.SameFor, List.filter_filter]
  refine List.filter_congr fun y _ => ?_
  cases hy : store.elsewhere doc y with
  | false => rfl
  | true => rw [NodeStore.not_owns_of_elsewhere hy]; rfl

namespace Postings

theorem mem_under {t : Postings} {keyword : String} :
    id ∈ t.under keyword ↔ ∃ ids, t.get? keyword = some ids ∧ id ∈ ids := by
  rw [under, SortedSet.mem_elems, SortedMap.getD_eq]
  cases t.get? keyword <;> simp

theorem sameFor_leaving (t : Postings) {gone : String → Bool} (h : ∀ id, p id = true → gone id = false) :
    t.SameFor p (t.leaving gone) := by
  intro keyword y hy
  have hstays : y ∉ t.among gone := by
    rw [mem_among, h y hy]
    exact fun hgone => Bool.false_ne_true hgone.2
  unfold leaving
  split
  next => rfl
  next =>
    rw [mem_under, mem_under]
    constructor
    · rintro ⟨ids, hids, hin⟩
      obtain ⟨⟨old, hold, rfl⟩, _⟩ := get?_prune.mp hids
      exact ⟨old, hold, (mem_without.mp hin).1⟩
    · rintro ⟨old, hold, hin⟩
      have hleft := mem_without.mpr ⟨hin, hstays⟩
      exact ⟨_, get?_prune.mpr ⟨⟨old, hold, rfl⟩, SortedSet.isEmpty_eq_false_iff.mpr ⟨y, hleft⟩⟩, hleft⟩

end Postings

theorem VectorMap.SameFor.refl (p : String → Bool) (m : VectorMap) : m.SameFor p m :=
  ⟨fun _ _ _ => Iff.rfl, fun _ _ _ _ _ => Iff.rfl, rfl⟩

theorem VectorMap.sameFor_fansOut {m m' : VectorMap} {vs : List String} (hf : m.FiledIn store)
    (h : m.FansOut doc vs m') : m.SameFor (store.elsewhere doc) m' := by
  have hvs (v : String) : v ∈ vs ↔ m.Lists doc v := by
    rw [Lists, SortedMap.getD_eq, h.entry]
    rfl
  -- a vector of another document's node is not listed for this one
  have hout {v y : String} (hy : store.elsewhere doc y = true) (hv : m.nodes.get? v = some y) : v ∉ vs := by
    obtain ⟨n, d, hn, hd, hne⟩ := NodeStore.elsewhere_iff.mp hy
    rw [hvs, hf v y n hv hn doc, hd]
    exact fun heq => hne (Option.some.inj heq)
  refine ⟨fun v y hy => ?_, fun v y hy hv d => ?_, ?_⟩
  · rw [h.nodes]
    split
    next hin => exact iff_of_false (Option.some_ne_none y).symm fun hv => hout hy hv hin
    next => rfl
  · by_cases hd : d = doc
    · subst hd
      have hnot : ¬ m.Lists d v := fun hl => hout hy hv ((hvs v).mpr hl)
      refine iff_of_false ?_ hnot
      rw [Lists, SortedMap.getD_eq, h.documents, if_pos rfl]
      exact List.not_mem_nil
    · rw [Lists, Lists, SortedMap.getD_eq, SortedMap.getD_eq, h.documents, if_neg hd]
  · rw [h.embeddings, List.filter_filter]
    refine List.filter_congr fun e _ => ?_
    cases hv : m.nodes.get? e.1 with
    | none => rfl
    | some y =>
        cases hy : store.elsewhere doc y with
        | false => simp [hy]
        | true => simp [hy, hout hy hv]

/-! ### Every kind -/

namespace Index
variable {i j : Index}

/-- A sound structure of stored nodes refers to the nodes of other documents as before. -/
theorem sameFor_deleteDocument (doc : String) (hs : i.Sound store) (h : i.Resolves store) :
    i.SameFor (store.elsewhere doc) (i.deleteDocument doc store).1 := by
  cases i with
  | tree f =>
      refine Forest.sameFor_deleteDocument hs fun q y hy => ?_
      exact NodeStore.contains_iff.mp (h y (SortedMap.mem_values.mpr ⟨q, hy⟩))
  | keywordTable t =>
      rw [KeywordTable.deleteDocument_leaves h]
      exact t.table.sameFor_leaving fun _ => NodeStore.not_owns_of_elsewhere
  | list l =>
      rw [NodeList.deleteDocument_leaves h]
      exact l.sameFor_leaves store doc
  | vectors m =>
      cases hd : m.deleteDocument doc with
      | error e =>
          simp only [deleteDocument, hd, afterDeletion]
          exact VectorMap.SameFor.refl _ m
      | ok r =>
          simp only [deleteDocument, hd, afterDeletion]
          exact VectorMap.sameFor_fansOut hs.2 (VectorMap.deleteDocument_eq_ok_iff.mp hd)
  | relations g =>
      rw [RelationGraph.deleteDocument_leaves h]
      change g.table.SameFor _ (g.leaving (store.owns doc)).table
      rw [RelationGraph.table_leaving]
      exact g.table.sameFor_leaving fun _ => NodeStore.not_owns_of_elsewhere

/-- Ids that are referred to in the same way are referred to by both or by none. -/
theorem SameFor.mem_nodeIds (h : i.SameFor p j) (hid : p id = true) : id ∈ j.nodeIds ↔ id ∈ i.nodeIds := by
  have hpostings {t t' : Postings} (ht : t.SameFor p t') : id ∈ t'.nodeIds.elems ↔ id ∈ t.nodeIds.elems := by
    simp only [SortedSet.mem_elems, Postings.mem_nodeIds, ← Postings.mem_under, ht _ id hid]
  cases i <;> cases j <;> try exact h.elim
  case tree f g =>
      simp only [nodeIds, Forest.nodeIds, SortedMap.mem_values]
      exact exists_congr fun q => h.nodes q id hid
  case keywordTable t t' => exact hpostings h
  case list l l' =>
      have hsame : id ∈ l'.nodes.filter p ↔ id ∈ l.nodes.filter p := by rw [h]
      rw [List.mem_filter, List.mem_filter] at hsame
      exact (and_iff_left hid).symm.trans (hsame.trans (and_iff_left hid))
  case vectors m m' =>
      simp only [nodeIds, VectorMap.nodeIds, SortedMap.mem_values]
      exact exists_congr fun v => h.nodes v id hid
  case relations g g' => exact hpostings h

end Index
end CorpusIndex
