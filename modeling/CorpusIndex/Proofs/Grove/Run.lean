import CorpusIndex.Proofs.Corpus.Deletion
import CorpusIndex.Proofs.Grove.Building

/-!
# Runs on a corpus with one tree

A run starts from an empty or a built tree over a store without summaries of it, and goes on with
insertions of new nodes and deletions of documents in any order. Positions are used again once the last
nodes are gone. No summary id is taken twice all the same, because a deletion drops a summary from the
tree and from the store together.
-/
namespace CorpusIndex

open Forest

/-- The corpus whose only structure is the tree of `g`. -/
def Corpus.ofGrove (g : Grove) : Corpus := ⟨g.2, IndexStore.put {} (.tree g.1)⟩

namespace Forest

variable {tree doc : String} {g g' : Grove} {c c' : Corpus} {dropped : SortedMap String (List String)}

/-! ### Deletions -/

theorem get?_ofGrove {key : String} {i : Index} :
    (Corpus.ofGrove g).indices.indices.get? key = some i ↔ key = g.1.id ∧ i = .tree g.1 := by
  change ((∅ : SortedMap String Index).insert g.1.id (.tree g.1)).get? key = some i ↔ _
  rw [SortedMap.get?_insert_eq_some]
  simp

/-- What the only tree of a corpus drops is what it loses, and that is nodes of the document and
derived nodes. -/
theorem Tended.deleteDocument_without (h : Tended tree [] g) (doc : String) :
    ∃ ids, g.1.Without ids (g.1.deleteDocument doc g.2).1 ∧
      (∀ y, (Corpus.ofGrove g).TreeDrops doc y ↔ y ∈ ids) ∧
      (∀ y ∈ ids, ∃ n, g.2.nodes.get? y = some n ∧ (n.document = some doc ∨ n.document = none)) ∧
      ∀ y n, g.1.contains y = true → g.2.nodes.get? y = some n → n.document = some doc → y ∈ ids := by
  have hstored (y : String) (hy : g.1.contains y = true) : ∃ n, g.2.nodes.get? y = some n :=
    NodeStore.contains_iff.mp (h.stored y hy)
  have hdrops (y : String) : (Corpus.ofGrove g).TreeDrops doc y ↔
      ∃ ids, (g.1.deleteDocument doc g.2).2 = .ok ids ∧ y ∈ ids := by
    constructor
    · rintro ⟨key, f, ids, hf, hids, hy⟩
      obtain ⟨_, heq⟩ := get?_ofGrove.mp hf
      cases heq
      exact ⟨ids, hids, hy⟩
    · rintro ⟨ids, hids, hy⟩
      exact ⟨g.1.id, g.1, ids, get?_ofGrove.mpr ⟨rfl, rfl⟩, hids, hy⟩
  rcases h.wellFormed.deleteDocument_without doc g.2 with ⟨e, hd⟩ | ⟨f, ids, hd, hf, hids, hall⟩
  · rcases h.wellFormed.deleteDocument_of_stored doc hstored with ⟨_, hnone⟩ | ⟨f, ids, hok⟩
    · refine ⟨[], ?_, fun y => ?_, by simp, fun y n hy hn hdoc => (hnone y n hy hn hdoc).elim⟩
      · rw [hd]
        exact .refl h.wellFormed
      · rw [hdrops, hd]
        simp
    · cases hd.symm.trans hok
  · refine ⟨ids, ?_, fun y => ?_, fun y hy => (hids y hy).2, hall⟩
    · rw [hd]
      exact hf
    · rw [hdrops, hd]
      simp

/-- A deletion leaves a tended tree and no other structure. -/
theorem Tended.deleteDocument (h : Tended tree [] g)
    (hdel : (Corpus.ofGrove g).deleteDocument doc = .ok (c', dropped)) :
    ∃ g', c' = .ofGrove g' ∧ Tended tree [] g' := by
  obtain ⟨hindices, hstore⟩ := Corpus.deleteDocument_eq_ok h.keyed hdel
  obtain ⟨ids, hf, hdrops, hids, hall⟩ := h.deleteDocument_without doc
  change ∀ id n, c'.store.nodes.get? id = some n ↔ g.2.nodes.get? id = some n ∧ _ at hstore
  have hkept (id : String) (hid : id ∉ ids) (hin : g.1.contains id = true) :
      c'.store.contains id = true := by
    obtain ⟨n, hn⟩ := NodeStore.contains_iff.mp (h.stored id hin)
    refine NodeStore.contains_iff.mpr ⟨n, (hstore id n).mpr ⟨hn, ?_, ?_⟩⟩
    · exact fun hdoc => hid (hall id n hin hn hdoc)
    · exact fun _ hdrop => hid ((hdrops id).mp hdrop)
  have hgone (id : String) (hid : c'.store.contains id = true) :
      g.2.contains id = true ∧ id ∉ ids := by
    obtain ⟨n, hn⟩ := NodeStore.contains_iff.mp hid
    obtain ⟨hn, hother, hplain⟩ := (hstore id n).mp hn
    refine ⟨NodeStore.contains_iff.mpr ⟨n, hn⟩, fun hin => ?_⟩
    obtain ⟨m, hm, hdoc⟩ := hids id hin
    cases hn.symm.trans hm
    rcases hdoc with hdoc | hnone
    · exact hother hdoc
    · exact hplain hnone ((hdrops id).mpr hin)
  refine ⟨((g.1.deleteDocument doc g.2).1, c'.store), ?_, ?_⟩
  · have hsame : c'.indices.indices =
        (Corpus.ofGrove ((g.1.deleteDocument doc g.2).1, c'.store)).indices.indices := by
      refine SortedMap.ext_get? fun key => Option.ext fun j => ?_
      rw [get?_ofGrove, hindices, hf.id_eq]
      constructor
      · rintro ⟨i, hi, rfl⟩
        obtain ⟨rfl, rfl⟩ := get?_ofGrove.mp hi
        exact ⟨rfl, rfl⟩
      · rintro ⟨rfl, rfl⟩
        exact ⟨.tree g.1, get?_ofGrove.mpr ⟨rfl, rfl⟩, rfl⟩
    obtain ⟨store, ⟨indices⟩⟩ := c'
    exact congrArg (fun m => (⟨store, ⟨m⟩⟩ : Corpus)) hsame
  · refine .of_settled (hf.id_eq.trans h.id_eq) hf.wellFormed
      (h.keyed.of_subset fun id n hn => ((hstore id n).mp hn).1) (fun id hid => ?_) fun k hk => ?_
    · obtain ⟨hout, hin⟩ := (hf.contains_iff h.wellFormed).mp hid
      exact hkept id hout hin
    · obtain ⟨hin, hout⟩ := hgone _ hk
      exact (hf.nodes k _).mpr ⟨hout, h.inPlace k hin⟩

/-- A document with a stored node can be deleted. -/
theorem Tended.deleteDocument_of_stored (h : Tended tree [] g) {id : String} {n : Node}
    (hn : g.2.nodes.get? id = some n) (hdoc : n.document = some doc) :
    ∃ c' dropped, (Corpus.ofGrove g).deleteDocument doc = .ok (c', dropped) := by
  refine Corpus.deleteDocument_of_passes h.keyed hn hdoc fun key i hi => ?_
  obtain ⟨_, rfl⟩ := get?_ofGrove.mp hi
  have hres : (Index.tree g.1).Resolves g.2 :=
    fun y hy => h.stored y (h.wellFormed.mem_nodeIds.mp hy)
  exact (Index.dropsFrom_tree h.wellFormed hres).outcome

/-! ### Runs -/

/-- Corpora that hold a tree and nothing else, as its builder, its inserter and deletions leave them. -/
inductive Reached (tree : String) : Corpus → Prop
  | empty {store : NodeStore} (keyed : store.Keyed)
      (plain : ∀ k, store.contains (summaryId tree k) = false) :
      Reached tree (.ofGrove ({ id := tree }, store))
  | built {σ : Type} {s : Summarizer σ} {width : Nat} {leaves : List Node} {store : NodeStore}
      {st st' : σ} {g : Grove} (keyed : store.Keyed)
      (plain : ∀ k, store.contains (summaryId tree k) = false)
      (run : (build s width tree leaves store).run st = (.ok g, st')) : Reached tree (.ofGrove g)
  | grown {σ : Type} {s : Summarizer σ} {sel : Selector σ} {width : Nat} {batch : List Node}
      {st st' : σ} {g g' : Grove} (before : Reached tree (.ofGrove g)) (succeeds : s.Succeeds)
      (inRange : sel.InRange) (fresh : Fresh tree g.2 batch)
      (run : (grow s sel width batch g).run st = (.ok g', st')) : Reached tree (.ofGrove g')
  | deleted {c c' : Corpus} {doc : String} {dropped : SortedMap String (List String)}
      (before : Reached tree c) (run : c.deleteDocument doc = .ok (c', dropped)) : Reached tree c'

theorem ofGrove_injective (h : Corpus.ofGrove g = .ofGrove g') : g = g' := by
  have hstore : g.2 = g'.2 := congrArg Corpus.store h
  have hget : (Corpus.ofGrove g').indices.indices.get? g.1.id = some (.tree g.1) :=
    h ▸ get?_ofGrove.mpr ⟨rfl, rfl⟩
  obtain ⟨_, htree⟩ := get?_ofGrove.mp hget
  exact Prod.ext (Index.tree.inj htree) hstore

theorem Reached.tended (h : Reached tree c) : ∃ g, c = .ofGrove g ∧ Tended tree [] g := by
  induction h with
  | @empty store keyed plain =>
      refine ⟨_, rfl, .of_settled rfl (wellFormed_empty tree none) keyed (fun id hid => ?_)
        fun k hk => ?_⟩
      · cases hid
      · cases hk.symm.trans (plain k)
  | built keyed plain run => exact ⟨_, rfl, (build_ends keyed plain).of_run run⟩
  | grown _ succeeds inRange fresh run ih =>
      obtain ⟨g, hg, ht⟩ := ih
      cases ofGrove_injective hg
      exact ⟨_, rfl, (grow_ends succeeds inRange ht fresh).of_run run⟩
  | deleted _ run ih =>
      obtain ⟨g, rfl, ht⟩ := ih
      exact ht.deleteDocument run

/-- All along a run the tree is well formed, its nodes are stored, and a stored summary stands at the
position its id names. Insertions of new nodes fail only on a width that is refused or for want of
positions, and deletions of stored documents do not fail. -/
theorem runs_stay_tended (h : Reached tree c) : ∃ g, c = .ofGrove g ∧
    g.1.WellFormed ∧ g.1.validate = .ok () ∧ (∀ id ∈ g.1.nodeIds, g.2.contains id = true) ∧
    (∀ k, g.2.contains (summaryId tree k) = true → g.1.nodes.get? k = some (summaryId tree k)) ∧
    (∀ (σ : Type) (s : Summarizer σ) (sel : Selector σ) (width : Nat) (batch : List Node) (st : σ)
      (e : Failure), s.Succeeds → sel.InRange → Fresh tree g.2 batch →
        ((grow s sel width batch g).run st).1 = .error e →
          e = .positionsExhausted ∨ e = .invalid (.tooFewChildren width)) ∧
    ∀ id n doc, g.2.nodes.get? id = some n → n.document = some doc →
      ∃ c' dropped, c.deleteDocument doc = .ok (c', dropped) := by
  obtain ⟨g, rfl, ht⟩ := h.tended
  refine ⟨g, rfl, ht.wellFormed, ht.wellFormed.validate, fun id hid => ?_, ht.inPlace, ?_, ?_⟩
  · exact ht.stored id (ht.wellFormed.mem_nodeIds.mp hid)
  · intro σ s sel width batch st e hs hsel hb hrun
    exact (grow_ends hs hsel ht hb).of_run_error hrun
  · intro id n doc hn hdoc
    exact ht.deleteDocument_of_stored hn hdoc

/-! ### Three nodes whose level is split -/

/-- The same text above everything. -/
def fixedSummary : Summarizer Unit := ⟨fun _ => pure "s"⟩

/-- No child is ever followed. -/
def undecided : Selector Unit := ⟨fun _ _ _ => pure []⟩

def threeNodes : List Node :=
  [{ id := "a", text := "x", document := some "A" }, { id := "b", text := "y", document := some "A" },
    { id := "c", text := "z", document := some "B" }]

/-- The tree of the three nodes, two siblings at most. -/
def splitGrove : Except Failure Grove :=
  ((grow fixedSummary undecided 2 threeNodes ({ id := "t" }, {})).run ()).1

theorem fresh_threeNodes : Fresh "t" {} threeNodes where
  nodup := by decide
  new := by decide
  plain n hn k h := by
    have hshort : ∀ n ∈ threeNodes, n.id.length = 1 := by decide
    have hn := hshort n hn
    rw [h, summaryId, String.length_append, String.length_append] at hn
    have htree : "t".length = 1 := rfl
    have hlabel : ":summary:".length = 9 := rfl
    omega

theorem reached_splitGrove (h : splitGrove = .ok g) : Reached "t" (.ofGrove g) := by
  have hempty : Reached "t" (.ofGrove ({ id := "t" }, {})) :=
    .empty NodeStore.keyed_empty fun _ => rfl
  have hsel : undecided.InRange := fun _ _ _ => Ends.pure (by simp)
  have hrun : (grow fixedSummary undecided 2 threeNodes ({ id := "t" }, {})).run () = (.ok g, ()) :=
    Prod.ext h (Subsingleton.elim ..)
  exact .grown hempty (fun _ => Ends.pure trivial) hsel fresh_threeNodes hrun

/-- After the split the second summary stands at its position, and the document `A` can be deleted. -/
theorem runs_stay_tended_splitGrove : ∃ g c' dropped, splitGrove = .ok g ∧
    g.1.nodes.get? 4 = some (summaryId "t" 4) ∧
      (Corpus.ofGrove g).deleteDocument "A" = .ok (c', dropped) := by
  have hstored : splitGrove.toOption.map (fun g => (g.2.contains (summaryId "t" 4),
      (g.2.nodes.get? "a").map (·.document))) = some (true, some (some "A")) := by decide
  cases hs : splitGrove with
  | error e => simp [hs, Except.toOption] at hstored
  | ok g =>
      simp only [hs, Except.toOption, Option.map_some, Option.some.injEq, Prod.mk.injEq] at hstored
      obtain ⟨n, hn, hdoc⟩ := Option.map_eq_some_iff.mp hstored.2
      obtain ⟨g', heq, _, _, _, hplace, _, hdel⟩ := runs_stay_tended (reached_splitGrove hs)
      cases ofGrove_injective heq
      obtain ⟨c', dropped, hdel⟩ := hdel "a" n "A" hn hdoc
      exact ⟨g, c', dropped, rfl, hplace 4 hstored.1, hdel⟩

end Forest
end CorpusIndex
