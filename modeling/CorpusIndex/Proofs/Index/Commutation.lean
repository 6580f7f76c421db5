import CorpusIndex.Proofs.Forest.Pruning
import CorpusIndex.Proofs.Index.Deletion

/-!
# Structures under two deletions

What a deletion leaves of a structure is described without the order in which ids go: a list is filtered,
postings lose ids and then keywords, relations are restricted to the keywords that are left, a vector map
loses what it lists for the document, and a tree is pruned. Each of these commutes with itself.
-/
namespace CorpusIndex

variable {store s t : NodeStore} {doc doc' id : String} {p q : String → Bool}

namespace NodeStore

/-- The node is stored and comes from the document. -/
def owns (s : NodeStore) (doc id : String) : Bool :=
  (s.nodes.get? id).any (fun n => n.document == some doc)

theorem owns_iff : s.owns doc id = true ↔ ∃ n, s.nodes.get? id = some n ∧ n.document = some doc := by
  unfold owns
  cases s.nodes.get? id <;> simp

end NodeStore

/-! ### Lists -/

theorem NodeList.deleteDocument_leaves {l : NodeList} (h : (Index.list l).Resolves store) :
    ((Index.list l).deleteDocument doc store).1 =
      .list { l with nodes := l.nodes.filter (fun id => !store.owns doc id) } := by
  obtain ⟨ns, hns⟩ := NodeStore.resolvePairs_of_stored l.nodes
    fun y hy => NodeStore.contains_iff.mp (h y hy)
  have hmem := (NodeStore.mem_ownedIds doc hns).2
  rw [Index.deleteDocument, NodeList.deleteDocument, hns, ok_bind]
  dsimp only
  split
  next hnil =>
    have hall : l.nodes.filter (fun id => !store.owns doc id) = l.nodes := by
      rw [List.filter_eq_self]
      intro y hy
      rw [Bool.not_eq_true', ← Bool.not_eq_true, NodeStore.owns_iff]
      intro hown
      have := (hmem y).mpr ⟨hy, hown⟩
      simp [List.isEmpty_iff.mp hnil] at this
    rw [hall]
    rfl
  next =>
    have hkept : l.nodes.filter (fun id => !store.owns doc id) = l.nodes.filter fun y =>
        !((ns.filter (fun n => n.2.document == some doc)).map (·.1)).contains y := by
      refine List.filter_congr fun y hy => congrArg _ ?_
      rw [Bool.eq_iff_iff, NodeStore.owns_iff, List.contains_iff_mem, hmem]
      exact (and_iff_right hy).symm
    rw [hkept]
    rfl

/-! ### Postings -/

namespace Postings
variable {t : Postings} {a b : SortedSet String}

theorem prune_congr (h : ∀ id ∈ t.nodeIds, id ∈ a ↔ id ∈ b) : t.prune a = t.prune b := by
  refine SortedMap.ext_get? fun keyword => Option.ext fun ids => ?_
  rw [get?_prune, get?_prune]
  refine and_congr_left fun _ => exists_congr fun old => and_congr_right fun hold => ?_
  have heq : SortedMap.filter old (fun id _ => !a.contains id) =
      SortedMap.filter old (fun id _ => !b.contains id) := by
    refine SortedSet.ext fun id => ?_
    rw [mem_without, mem_without]
    exact and_congr_right fun hid => not_congr (h id (mem_nodeIds.mpr ⟨keyword, old, hold, hid⟩))
  rw [heq]

/-- An id that is pruned later need not be pruned before. -/
theorem prune_prune : (t.prune a).prune b = t.prune (SortedMap.union a b) := by
  have htwice (old : SortedSet String) :
      SortedMap.filter (SortedMap.filter old (fun id _ => !a.contains id)) (fun id _ => !b.contains id) =
        SortedMap.filter old (fun id _ => !(SortedMap.union a b).contains id) := by
    refine SortedSet.ext fun id => ?_
    rw [mem_without, mem_without, mem_without, SortedSet.mem_union]
    tauto
  have hsome {old : SortedSet String} {ids : SortedSet String}
      (hids : SortedMap.filter old (fun id _ => !b.contains id) = ids) (hne : ids.isEmpty = false) :
      old.isEmpty = false := by
    obtain ⟨id, hid⟩ := SortedSet.isEmpty_eq_false_iff.mp hne
    rw [← hids, mem_without] at hid
    exact SortedSet.isEmpty_eq_false_iff.mpr ⟨id, hid.1⟩
  refine SortedMap.ext_get? fun keyword => Option.ext fun ids => ?_
  simp only [get?_prune]
  constructor
  · rintro ⟨⟨_, ⟨⟨old, hold, rfl⟩, _⟩, hids⟩, hne⟩
    exact ⟨⟨old, hold, (htwice old).symm.trans hids⟩, hne⟩
  · rintro ⟨⟨old, hold, hids⟩, hne⟩
    rw [← htwice] at hids
    exact ⟨⟨_, ⟨⟨old, hold, rfl⟩, hsome hids hne⟩, hids⟩, hne⟩

/-- Filed ids of a kind. -/
def among (t : Postings) (p : String → Bool) : SortedSet String := t.nodeIds.filter (fun id _ => p id)

theorem mem_among : id ∈ t.among p ↔ id ∈ t.nodeIds ∧ p id = true := SortedSet.mem_filter

/-- The postings once ids of a kind are gone; where there are none, nothing changes. -/
def leaving (t : Postings) (p : String → Bool) : Postings :=
  if (t.among p).isEmpty then t else t.prune (t.among p)

theorem among_congr (h : ∀ id ∈ t.nodeIds, p id = q id) : t.among p = t.among q := by
  refine SortedSet.ext fun id => ?_
  rw [mem_among, mem_among]
  exact and_congr_right fun hid => by rw [h id hid]

theorem leaving_congr (h : ∀ id ∈ t.nodeIds, p id = q id) : t.leaving p = t.leaving q := by
  rw [leaving, leaving, among_congr h]

theorem mem_nodeIds_leaving : id ∈ (t.leaving p).nodeIds ↔ id ∈ t.nodeIds ∧ p id = false := by
  unfold leaving
  split
  next hnil =>
    refine (and_iff_left_of_imp fun hid => ?_).symm
    rw [← Bool.not_eq_true]
    exact fun hp => SortedSet.isEmpty_iff.mp hnil id (mem_among.mpr ⟨hid, hp⟩)
  next =>
    rw [mem_nodeIds_prune, mem_among]
    refine and_congr_right fun hid => ?_
    rw [← Bool.not_eq_true]
    exact not_congr (and_iff_right hid)

theorem contains_of_leaving {keyword : String} (h : (t.leaving p).contains keyword = true) :
    t.contains keyword = true := by
  unfold leaving at h
  split at h
  next => exact h
  next =>
    obtain ⟨ids, hids⟩ := SortedMap.contains_iff.mp h
    obtain ⟨⟨old, hold, _⟩, _⟩ := get?_prune.mp hids
    exact SortedMap.contains_iff.mpr ⟨old, hold⟩

/-- An id of one of two kinds is of the first, or of the second among those the first leaves. -/
theorem mem_among_or : id ∈ t.among (fun id => p id || q id) ↔
    id ∈ t.among p ∨ id ∈ (t.leaving p).among q := by
  rw [mem_among, mem_among, mem_among, mem_nodeIds_leaving]
  cases p id <;> simp

theorem isEmpty_among_or : (t.among (fun id => p id || q id)).isEmpty = true ↔
    (t.among p).isEmpty = true ∧ ((t.leaving p).among q).isEmpty = true := by
  simp only [SortedSet.isEmpty_iff, mem_among_or, not_or, forall_and]

/-- Ids of two kinds leave one kind after the other as they leave together. -/
theorem leaving_leaving : (t.leaving p).leaving q = t.leaving (fun id => p id || q id) := by
  have hboth (hne : ¬ ((t.among p).isEmpty = true ∧ ((t.leaving p).among q).isEmpty = true)) :
      t.leaving (fun id => p id || q id) = t.prune (t.among fun id => p id || q id) :=
    if_neg fun h => hne (isEmpty_among_or.mp h)
  by_cases hp : (t.among p).isEmpty = true <;> by_cases hq : ((t.leaving p).among q).isEmpty = true
  · have hfirst : t.leaving p = t := if_pos hp
    have hnone : t.leaving (fun id => p id || q id) = t := if_pos (isEmpty_among_or.mpr ⟨hp, hq⟩)
    rw [leaving, if_pos hq, hfirst, hnone]
  · have hfirst : t.leaving p = t := if_pos hp
    have hsecond : (t.leaving p).leaving q = t.prune ((t.leaving p).among q) :=
      (if_neg hq).trans (congrArg (prune · ((t.leaving p).among q)) hfirst)
    rw [hboth fun h => hq h.2, hsecond]
    refine prune_congr fun id _ => ?_
    rw [mem_among_or]
    exact (or_iff_right (SortedSet.isEmpty_iff.mp hp id)).symm
  · have hfirst : t.leaving p = t.prune (t.among p) := if_neg hp
    rw [hboth fun h => hp h.1, leaving, if_pos hq, hfirst]
    refine prune_congr fun id _ => ?_
    rw [mem_among_or]
    exact (or_iff_left (SortedSet.isEmpty_iff.mp hq id)).symm
  · have hfirst : t.leaving p = t.prune (t.among p) := if_neg hp
    have hsecond : (t.leaving p).leaving q = (t.prune (t.among p)).prune ((t.leaving p).among q) :=
      (if_neg hq).trans (congrArg (prune · ((t.leaving p).among q)) hfirst)
    rw [hboth fun h => hp h.1, hsecond, prune_prune]
    refine prune_congr fun id _ => ?_
    rw [SortedSet.mem_union, mem_among_or]

/-- The ids a document owns, where all filed ids are stored. -/
theorem ownedBy_eq_among (doc : String) (h : ∀ id ∈ t.nodeIds, ∃ n, store.nodes.get? id = some n) :
    t.ownedBy doc store = .ok (t.among (store.owns doc)) := by
  obtain ⟨doomed, hown, hmem⟩ := ownedBy_of_stored doc h
  rw [hown]
  refine congrArg _ (SortedSet.ext fun id => ?_)
  rw [hmem, mem_among, NodeStore.owns_iff]

end Postings

theorem KeywordTable.deleteDocument_leaves {t : KeywordTable}
    (h : (Index.keywordTable t).Resolves store) :
    ((Index.keywordTable t).deleteDocument doc store).1 =
      .keywordTable { t with table := t.table.leaving (store.owns doc) } := by
  have hown := Postings.ownedBy_eq_among doc (t := t.table) fun id hid =>
    NodeStore.contains_iff.mp (h id (SortedSet.mem_elems.mpr hid))
  simp only [Index.deleteDocument, KeywordTable.deleteDocument, hown, ok_bind, Postings.leaving]
  split <;> rfl

/-! ### Relations -/

namespace RelationGraph
variable {g : RelationGraph} {table small : Postings}
  {relations : SortedMap String (List (String × String))}

/-- The relations whose subject and object are keywords. -/
def restrict (table : Postings) (relations : SortedMap String (List (String × String))) :
    SortedMap String (List (String × String)) :=
  ((relations.filter (fun subject _ => table.contains subject)).mapValues
    (fun _ pairs => pairs.filter (fun p => table.contains p.2))).filter (fun _ pairs => !pairs.isEmpty)

theorem get?_restrict {subject : String} {pairs : List (String × String)} :
    (restrict table relations).get? subject = some pairs ↔ table.contains subject = true ∧
      (∃ old, relations.get? subject = some old ∧ old.filter (fun p => table.contains p.2) = pairs) ∧
        pairs ≠ [] := by
  rw [restrict, SortedMap.get?_filter_eq_some, SortedMap.get?_mapValues, Option.map_eq_some_iff]
  simp only [SortedMap.get?_filter_eq_some, Bool.not_eq_true', List.isEmpty_eq_false_iff]
  tauto

/-- Restricting to fewer keywords later makes the first restriction needless. -/
theorem restrict_restrict (h : ∀ k, small.contains k = true → table.contains k = true) :
    restrict small (restrict table relations) = restrict small relations := by
  have htwice (old : List (String × String)) :
      (old.filter (fun p => table.contains p.2)).filter (fun p => small.contains p.2) =
        old.filter (fun p => small.contains p.2) := by
    rw [List.filter_filter]
    refine List.filter_congr fun p _ => ?_
    cases hp : small.contains p.2 with
    | false => rfl
    | true => rw [h _ hp, Bool.and_true]
  refine SortedMap.ext_get? fun subject => Option.ext fun pairs => ?_
  rw [get?_restrict, get?_restrict]
  refine and_congr_right fun hin => and_congr_left fun hne => ?_
  constructor
  · rintro ⟨_, hmid, hpairs⟩
    obtain ⟨_, ⟨old, hold, rfl⟩, _⟩ := get?_restrict.mp hmid
    exact ⟨old, hold, (htwice old).symm.trans hpairs⟩
  · rintro ⟨old, hold, hpairs⟩
    refine ⟨_, get?_restrict.mpr ⟨h _ hin, ⟨old, hold, rfl⟩, fun hnil => hne ?_⟩,
      (htwice old).trans hpairs⟩
    rw [← hpairs, ← htwice, hnil]
    rfl

/-- The graph once ids of a kind are gone; where there are none, nothing changes. -/
def leaving (g : RelationGraph) (p : String → Bool) : RelationGraph :=
  if (g.table.among p).isEmpty then g
  else { g with table := g.table.leaving p, relations := restrict (g.table.leaving p) g.relations }

theorem table_leaving : (g.leaving p).table = g.table.leaving p := by
  unfold leaving
  split
  next hnil => exact (if_pos hnil).symm
  next => rfl

theorem leaving_congr (h : ∀ id ∈ g.table.nodeIds, p id = q id) : g.leaving p = g.leaving q := by
  rw [leaving, leaving, Postings.among_congr h, Postings.leaving_congr h]

theorem leaving_leaving : (g.leaving p).leaving q = g.leaving (fun id => p id || q id) := by
  have htable := Postings.leaving_leaving (t := g.table) (p := p) (q := q)
  have hboth (hne : ¬ ((g.table.among p).isEmpty = true ∧
      ((g.table.leaving p).among q).isEmpty = true)) : g.leaving (fun id => p id || q id) =
        { g with
          table := (g.table.leaving p).leaving q
          relations := restrict ((g.table.leaving p).leaving q) g.relations } := by
    rw [htable]
    exact if_neg fun h => hne (Postings.isEmpty_among_or.mp h)
  by_cases hp : (g.table.among p).isEmpty = true <;>
    by_cases hq : ((g.table.leaving p).among q).isEmpty = true
  · have hfirst : g.leaving p = g := if_pos hp
    have hnone : g.leaving (fun id => p id || q id) = g :=
      if_pos (Postings.isEmpty_among_or.mpr ⟨hp, hq⟩)
    rw [leaving, table_leaving, if_pos hq, hfirst, hnone]
  · have hfirst : g.leaving p = g := if_pos hp
    have hsame : g.table.leaving p = g.table := if_pos hp
    rw [hboth fun h => hq h.2, hsame, hfirst]
    exact if_neg (hsame ▸ hq)
  · have hsecond : (g.leaving p).leaving q = g.leaving p := by rw [leaving, table_leaving, if_pos hq]
    have hsame : (g.table.leaving p).leaving q = g.table.leaving p := if_pos hq
    rw [hboth fun h => hp h.1, hsecond, hsame]
    exact if_neg hp
  · have hfirst : (g.leaving p).relations = restrict (g.table.leaving p) g.relations := by
      rw [leaving, if_neg hp]
    have hsecond : (g.leaving p).leaving q = { g.leaving p with
        table := (g.table.leaving p).leaving q
        relations := restrict ((g.table.leaving p).leaving q) (g.leaving p).relations } := by
      rw [leaving, table_leaving, if_neg hq]
    rw [hboth fun h => hp h.1, hsecond, hfirst,
      restrict_restrict fun k hk => Postings.contains_of_leaving hk, leaving, if_neg hp]

theorem deleteDocument_leaves {g : RelationGraph} (h : (Index.relations g).Resolves store) :
    ((Index.relations g).deleteDocument doc store).1 = .relations (g.leaving (store.owns doc)) := by
  have hown := Postings.ownedBy_eq_among doc (t := g.table) fun id hid =>
    NodeStore.contains_iff.mp (h id (SortedSet.mem_elems.mpr hid))
  simp only [Index.deleteDocument, RelationGraph.deleteDocument, hown, ok_bind, leaving]
  by_cases hnil : (g.table.among (store.owns doc)).isEmpty = true
  · simp only [hnil, if_true]
    rfl
  · simp only [hnil, Postings.leaving]
    rfl

end RelationGraph

/-! ### Vector maps -/

namespace VectorMap

theorem deleteDocument_comm (m : VectorMap) (doc doc' : String) :
    (((Index.vectors m).deleteDocument doc store).1.deleteDocument doc' store).1 =
      (((Index.vectors m).deleteDocument doc' store).1.deleteDocument doc store).1 := by
  by_cases hne : doc = doc'
  · rw [hne]
  · have hkeep (m : VectorMap) : (m.documents.erase doc).get? doc' = m.documents.get? doc' :=
      SortedMap.get?_erase_of_ne _ (Ne.symm hne)
    have hkeep' (m : VectorMap) : (m.documents.erase doc').get? doc = m.documents.get? doc :=
      SortedMap.get?_erase_of_ne _ hne
    cases hd : m.documents.get? doc with
    | none =>
        cases hd' : m.documents.get? doc' with
        | none => simp only [Index.deleteDocument, deleteDocument, hd, hd', Index.afterDeletion]
        | some vs' =>
            simp only [Index.deleteDocument, deleteDocument, hd, hd', hkeep', Index.afterDeletion]
    | some vs =>
        cases hd' : m.documents.get? doc' with
        | none => simp only [Index.deleteDocument, deleteDocument, hd, hd', hkeep, Index.afterDeletion]
        | some vs' =>
            have hnodes : vs'.foldl SortedMap.erase (vs.foldl SortedMap.erase m.nodes) =
                vs.foldl SortedMap.erase (vs'.foldl SortedMap.erase m.nodes) := by
              refine SortedMap.ext_get? fun v => Option.ext fun id => ?_
              simp only [SortedMap.get?_foldl_erase]
              exact and_left_comm
            have hdocuments : (m.documents.erase doc).erase doc' =
                (m.documents.erase doc').erase doc := by
              refine SortedMap.ext_get? fun d => Option.ext fun us => ?_
              simp only [SortedMap.get?_erase_eq_some]
              exact and_left_comm
            simp only [Index.deleteDocument, deleteDocument, hd, hd', hkeep, hkeep',
              Index.afterDeletion, hnodes, hdocuments, List.filter_filter, Bool.and_comm]

end VectorMap

/-! ### Every kind -/

namespace Index
variable {i : Index}

/-- Ids whose nodes a deletion looks at; a vector map keeps account of documents itself. -/
def lookedUp : Index → List String
  | .vectors _ => []
  | i => i.nodeIds

/-- What a deletion relies on: a tree is well formed and the ids looked up are stored. -/
def Deletable (store : NodeStore) (i : Index) : Prop :=
  (∀ f, i = .tree f → f.WellFormed) ∧ ∀ id ∈ i.lookedUp, store.contains id = true

theorem Deletable.dropsFrom (h : i.Deletable store) (hv : ∀ m, i ≠ .vectors m) :
    DropsFrom store doc i.nodeIds (i.deleteDocument doc store) := by
  cases i with
  | tree f => exact dropsFrom_tree (h.1 f rfl) h.2
  | keywordTable t => exact dropsFrom_keywordTable h.2
  | list l => exact dropsFrom_list h.2
  | vectors m => exact (hv m rfl).elim
  | relations g => exact dropsFrom_relations h.2

theorem Deletable.outcome (h : i.Deletable store) :
    (∃ ids, (i.deleteDocument doc store).2 = .ok ids) ∨
      ∃ a, (i.deleteDocument doc store).2 = .error (.absent a) := by
  by_cases hv : ∃ m, i = .vectors m
  · obtain ⟨m, rfl⟩ := hv
    cases hd : m.deleteDocument doc with
    | ok r => exact .inl ⟨r.2, by simp only [deleteDocument, hd, afterDeletion]⟩
    | error e =>
        obtain ⟨rfl, _⟩ := VectorMap.deleteDocument_error hd
        refine .inr ⟨.document doc (.vectors m.id), ?_⟩
        simp only [deleteDocument, hd, afterDeletion]
  · exact (h.dropsFrom fun m hm => hv ⟨m, hm⟩).outcome

/-- After a deletion, ids of other documents are looked up only. -/
theorem lookedUp_deleteDocument (h : i.Deletable store)
    (hid : id ∈ (i.deleteDocument doc store).1.lookedUp) :
    id ∈ i.lookedUp ∧ ∀ n, store.nodes.get? id = some n → n.document ≠ some doc := by
  have hsame (hnot : ∀ m, i ≠ .vectors m)
      (hids : (i.deleteDocument doc store).1.lookedUp = (i.deleteDocument doc store).1.nodeIds)
      (hi : i.nodeIds = i.lookedUp) :
      id ∈ i.lookedUp ∧ ∀ n, store.nodes.get? id = some n → n.document ≠ some doc := by
    rw [hids] at hid
    exact hi ▸ (h.dropsFrom hnot).subset id hid
  cases i with
  | vectors m =>
      cases hd : m.deleteDocument doc <;> simp [deleteDocument, hd, afterDeletion, lookedUp] at hid
  | tree f => exact hsame (by simp) rfl rfl
  | keywordTable t => exact hsame (by simp) (by rw [t.deleteDocument_leaves h.2]; rfl) rfl
  | list l => exact hsame (by simp) (by rw [l.deleteDocument_leaves h.2]; rfl) rfl
  | relations g => exact hsame (by simp) (by rw [g.deleteDocument_leaves h.2]; rfl) rfl

theorem Deletable.stored {f : Forest} (h : (Index.tree f).Deletable store) {p : Nat} {y : String}
    (hy : f.nodes.get? p = some y) : ∃ n, store.nodes.get? y = some n :=
  NodeStore.contains_iff.mp (h.2 y (SortedMap.mem_values.mpr ⟨p, hy⟩))

/-- Only a tree leaves a tree. -/
theorem eq_tree_of_deleteDocument {g : Forest} (h : i.Deletable store)
    (hg : (i.deleteDocument doc store).1 = .tree g) :
    ∃ f, i = .tree f ∧ g = (f.deleteDocument doc store).1 := by
  cases i with
  | tree f => exact ⟨f, rfl, (Index.tree.inj hg).symm⟩
  | keywordTable t => cases (t.deleteDocument_leaves h.2).symm.trans hg
  | list l => cases (l.deleteDocument_leaves h.2).symm.trans hg
  | vectors m => cases hd : m.deleteDocument doc <;> simp [deleteDocument, hd, afterDeletion] at hg
  | relations k => cases (k.deleteDocument_leaves h.2).symm.trans hg

theorem Deletable.prunes {f : Forest} (h : (Index.tree f).Deletable store) (doc : String) :
    f.Prunes store [doc] (f.deleteDocument doc store).1 :=
  (h.1 f rfl).deleteDocument_prunes doc fun _ _ hy => h.stored hy

theorem Deletable.deleteDocument (h : i.Deletable store) (doc : String) :
    (i.deleteDocument doc store).1.Deletable store := by
  refine ⟨fun g hg => ?_, fun id hid => h.2 id (lookedUp_deleteDocument h hid).1⟩
  obtain ⟨f, rfl, rfl⟩ := eq_tree_of_deleteDocument h hg
  exact (h.prunes doc).wellFormed

/-- Two documents leave a structure in either order with the same result. -/
theorem deleteDocument_comm (h : i.Deletable store) (doc doc' : String) :
    ((i.deleteDocument doc store).1.deleteDocument doc' store).1 =
      ((i.deleteDocument doc' store).1.deleteDocument doc store).1 := by
  have hd := h.deleteDocument doc
  have hd' := h.deleteDocument doc'
  cases i with
  | tree f =>
      exact congrArg Index.tree ((h.1 f rfl).deleteDocument_comm doc doc' fun _ _ hy => h.stored hy)
  | keywordTable t =>
      rw [t.deleteDocument_leaves h.2] at hd ⊢
      rw [t.deleteDocument_leaves h.2] at hd' ⊢
      rw [KeywordTable.deleteDocument_leaves hd.2, KeywordTable.deleteDocument_leaves hd'.2]
      simp only [Postings.leaving_leaving, Bool.or_comm]
  | list l =>
      rw [l.deleteDocument_leaves h.2] at hd ⊢
      rw [l.deleteDocument_leaves h.2] at hd' ⊢
      rw [NodeList.deleteDocument_leaves hd.2, NodeList.deleteDocument_leaves hd'.2]
      simp only [List.filter_filter, Bool.and_comm]
  | vectors m => exact m.deleteDocument_comm doc doc'
  | relations g =>
      rw [g.deleteDocument_leaves h.2] at hd ⊢
      rw [g.deleteDocument_leaves h.2] at hd' ⊢
      rw [RelationGraph.deleteDocument_leaves hd.2, RelationGraph.deleteDocument_leaves hd'.2]
      simp only [RelationGraph.leaving_leaving, Bool.or_comm]

/-- Stores that agree on the ids a structure looks up leave the same of it. -/
theorem deleteDocument_congr (doc : String) (h : i.Deletable s)
    (hst : ∀ id ∈ i.lookedUp, s.nodes.get? id = t.nodes.get? id) :
    i.Deletable t ∧ (i.deleteDocument doc s).1 = (i.deleteDocument doc t).1 := by
  have ht : i.Deletable t := by
    refine ⟨h.1, fun id hid => ?_⟩
    obtain ⟨n, hn⟩ := NodeStore.contains_iff.mp (h.2 id hid)
    exact NodeStore.contains_iff.mpr ⟨n, (hst id hid) ▸ hn⟩
  have howns (id : String) (hid : id ∈ i.lookedUp) : s.owns doc id = t.owns doc id := by
    rw [NodeStore.owns, hst id hid, NodeStore.owns]
  refine ⟨ht, ?_⟩
  cases i with
  | tree f =>
      refine congrArg Index.tree ((h.1 f rfl).deleteDocument_congr doc (fun _ _ hy => h.stored hy) ?_)
      exact fun p y hy => hst y (SortedMap.mem_values.mpr ⟨p, hy⟩)
  | keywordTable k =>
      have hsame := Postings.leaving_congr (t := k.table) fun id hid =>
        howns id (SortedSet.mem_elems.mpr hid)
      rw [k.deleteDocument_leaves h.2, k.deleteDocument_leaves ht.2, hsame]
  | list l =>
      have hsame : l.nodes.filter (fun id => !s.owns doc id) = l.nodes.filter (fun id => !t.owns doc id) :=
        List.filter_congr fun id hid => congrArg _ (howns id hid)
      rw [l.deleteDocument_leaves h.2, l.deleteDocument_leaves ht.2, hsame]
  | vectors m => rfl
  | relations g =>
      have hsame := RelationGraph.leaving_congr (g := g) fun id hid =>
        howns id (SortedSet.mem_elems.mpr hid)
      rw [g.deleteDocument_leaves h.2, g.deleteDocument_leaves ht.2, hsame]

end Index
end CorpusIndex
