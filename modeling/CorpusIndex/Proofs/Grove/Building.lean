import CorpusIndex.Proofs.Grove.Insertion

/-!
# Built forests are tended

While levels are raised above the leaves, the nodes of the forest are leaves that are stored or
summaries made so far, and each of these has the id of its position. A build that succeeds has put the
summaries into the store.
-/
namespace CorpusIndex.Forest

variable {σ : Type} {s : Summarizer σ} {tree : String} {store : NodeStore} {f g : Forest}
  {leaves : List Node} {width : Nat} {growth : Growth}

theorem WellFormed.setSummary (w : f.WellFormed) (summary : Option String) :
    ({ f with summary } : Forest).WellFormed :=
  ⟨⟨w.inverse, w.roots_iff, w.parent_present, w.occupied, w.single⟩, w.rooted, w.inhabited⟩

/-- Every node planted is stored. -/
theorem plant_eq_ok (w : f.WellFormed) (h : plant store f leaves = .ok g) : g.id = f.id ∧
    g.WellFormed ∧ ∀ x, g.contains x = true → f.contains x = true ∨ store.contains x = true := by
  induction leaves generalizing f with
  | nil =>
      cases h
      exact ⟨rfl, w, fun x hx => .inl hx⟩
  | cons n leaves ih =>
      obtain ⟨m, hm, h⟩ := bind_eq_ok.mp h
      obtain ⟨⟨f', p⟩, hins, h⟩ := bind_eq_ok.mp h
      obtain ⟨below, _, hgraft, rfl, _⟩ := insert_eq_ok w.toWired hins
      obtain ⟨hid, hw, hx⟩ := ih (hgraft.wellFormed_graft w) h
      refine ⟨hid, hw, fun x hgx => ?_⟩
      rcases hx x hgx with hfx | hs
      · rcases contains_graft.mp hfx with rfl | hfx
        · exact .inr (NodeStore.contains_iff.mpr ⟨m, NodeStore.node_eq_ok.mp hm⟩)
        · exact .inl hfx
      · exact .inr hs

/-- A forest being built: each node is stored already or a summary made for its position. -/
structure Raised (tree : String) (store : NodeStore) (growth : Growth) : Prop where
  id_eq : growth.forest.id = tree
  wellFormed : growth.forest.WellFormed
  accounted : ∀ x, growth.forest.contains x = true →
    store.contains x = true ∨ x ∈ growth.made.map (·.id)
  placed : ∀ n ∈ growth.made, ∃ k, n.id = summaryId tree k ∧
    growth.forest.nodes.get? k = some n.id

theorem coverGroups_ends (groups : List (List (String × String))) (h : Raised tree store growth) :
    Ends (coverGroups s tree growth groups) (Raised tree store) fun _ => True := by
  induction groups generalizing growth with
  | nil => exact Ends.pure h
  | cons group groups ih =>
      unfold coverGroups
      refine Ends.bind (Ends.any _) fun text _ => Ends.bind (Ends.any _) fun p _ => ?_
      refine Ends.bind (Ends.checked _) fun r hr => ?_
      obtain ⟨f, q⟩ := r
      obtain ⟨below, hq, hgraft, rfl, _⟩ := insert_eq_ok h.wellFormed.toWired hr
      cases Except.ok.inj hq
      refine ih ⟨h.id_eq, hgraft.wellFormed_graft h.wellFormed, fun x hx => ?_, fun n hn => ?_⟩
      · rw [List.map_append, List.mem_append]
        rcases contains_graft.mp hx with rfl | hx
        · exact .inr (.inr (by simp [summaryNode_id]))
        · exact (h.accounted x hx).imp_right .inl
      · rcases List.mem_append.mp hn with hn | hn
        · obtain ⟨k, hk, hget⟩ := h.placed n hn
          refine ⟨k, hk, SortedMap.get?_insert_eq_some.mpr (.inr ⟨?_, hget⟩)⟩
          rintro rfl
          cases hget.symm.trans hgraft.free
        · rw [List.mem_singleton.mp hn, summaryNode_id]
          exact ⟨p, rfl, SortedMap.get?_insert_self ..⟩

theorem raise_ends (fuel : Nat) (h : Raised tree store growth) :
    Ends (raise s width tree fuel growth) (Raised tree store) fun _ => True := by
  induction fuel generalizing growth with
  | zero => exact Ends.pure h
  | succ fuel ih =>
      unfold raise
      refine Ends.ite (Ends.pure h) ?_
      have hstart : Raised tree store { growth with level := [] } :=
        ⟨h.id_eq, h.wellFormed, h.accounted, h.placed⟩
      exact Ends.bind (coverGroups_ends _ hstart) fun growth hg => ih hg

/-- A build that succeeds over a store without summaries of the tree gives a tended forest. -/
theorem build_ends (k : store.Keyed) (hplain : ∀ p, store.contains (summaryId tree p) = false) :
    Ends (build s width tree leaves store) (Tended tree []) fun _ => True := by
  unfold build
  refine Ends.bind (Ends.any _) fun _ _ => ?_
  refine Ends.bind (Ends.checked _) fun planted hplanted => ?_
  obtain ⟨hid, hw, hx⟩ := plant_eq_ok (wellFormed_empty tree none) hplanted
  have hstart : Raised tree store
      { forest := planted, level := leaves.map (fun n => (n.id, n.text)) } := by
    refine ⟨hid, hw, fun x hpx => .inl ((hx x hpx).resolve_left ?_), by simp⟩
    exact Bool.false_ne_true
  refine Ends.bind (raise_ends leaves.length hstart) fun growth hg => ?_
  have hlast (summary : Option String) : Ends (do
      let store ← liftM (store.add growth.made false)
      return (({ growth.forest with summary } : Forest), store) : Action σ Grove)
      (Tended tree []) fun _ => True := by
    refine Ends.bind (Ends.checked _) fun t ht => Ends.pure ?_
    obtain ⟨hnd, _, rfl⟩ := NodeStore.add_eq_ok ht
    have hstore (x : String) : (growth.made.foldl NodeStore.put store).contains x = true ↔
        x ∈ growth.made.map (·.id) ∨ store.contains x = true := NodeStore.contains_foldl_put hnd
    refine .of_settled hg.id_eq (hg.wellFormed.setSummary summary) (NodeStore.Keyed.foldl_put k)
      (fun x hx => (hstore x).mpr (hg.accounted x hx).symm) fun p hp => ?_
    rcases (hstore _).mp hp with hp | hp
    · obtain ⟨n, hn, heq⟩ := List.mem_map.mp hp
      obtain ⟨q, hq, hget⟩ := hg.placed n hn
      cases summaryId_injective (heq.symm.trans hq)
      exact heq ▸ hget
    · cases hp.symm.trans (hplain p)
  refine Ends.ite ?_ ?_
  · exact Ends.bind (Ends.any _) fun summary _ => hlast summary
  · exact Ends.bind (Ends.any _) fun summary _ => hlast summary

end CorpusIndex.Forest
