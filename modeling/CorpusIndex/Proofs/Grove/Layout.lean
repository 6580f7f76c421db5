import CorpusIndex.Proofs.Grove.Extension
import CorpusIndex.Proofs.Grove.Tiers

/-!
# What a build leaves

A build that succeeds has stacked levels of summaries on the leaves, in the order of the leaves and all of
one depth, and has put these summaries into the store (`Levelled`). One that fails has written nothing: with
the store as a part of the state, where it can be read and written at any time, the steps that can
fail all come before the one that writes (`buildInPlace_run`).
-/
namespace CorpusIndex

variable {σ α : Type}

namespace Forest
variable {s : Summarizer σ} {tree : String} {f : Forest} {leaves level : List String}
  {growth : Growth} {width height : Nat} {store after : NodeStore} {batch : List Node}

/-- The forest `f` stands in levels on `leaves`, with at most `width` siblings anywhere, and `after` has its
summaries beside what was in `store`. -/
structure Levelled (f : Forest) (leaves : List String) (width : Nat) (store after : NodeStore) : Prop where
  wellFormed : f.WellFormed
  distinct : leaves.Nodup
  stored : ∀ x ∈ leaves, store.contains x = true
  places : ∀ i x, leaves[i]? = some x → f.nodes.get? i = some x
  leafIds : f.leafIds = leaves
  depth : ∃ d, ∀ p x, f.nodes.get? p = some x → x ∈ leaves → f.Depth p d
  walked : ∃ roots met, f.childrenOf none = .ok roots ∧ roots.length ≤ width ∧
    (∀ ids, f.Walk (roots.map (·.2)) ids ↔ ids = met) ∧ met.filter f.isLeaf = leaves
  narrow : ∀ x, f.contains x = true → x ∉ leaves →
    ∃ l, f.childrenOf (some x) = .ok l ∧ 1 ≤ l.length ∧ l.length ≤ width
  kept : ∀ x n, store.nodes.get? x = some n → after.nodes.get? x = some n
  gained : ∀ x, after.contains x = true ∧ store.contains x = false ↔ f.contains x = true ∧ x ∉ leaves

theorem Levelled.setSummary (h : Levelled f leaves width store after) (summary : Option String) :
    Levelled { f with summary } leaves width store after where
  wellFormed := h.wellFormed.setSummary summary
  distinct := h.distinct
  stored := h.stored
  places := h.places
  leafIds := h.leafIds
  depth := by
    obtain ⟨d, hd⟩ := h.depth
    exact ⟨d, fun p x hp hx => (hd p x hp hx).setSummary summary⟩
  walked := by
    obtain ⟨roots, met, hroots, hle, hwalk, hleaves⟩ := h.walked
    have hmet := ((hwalk met).mpr rfl).setSummary summary
    refine ⟨roots, met, hroots, hle, fun ids => ⟨fun h => h.unique hmet, ?_⟩, hleaves⟩
    rintro rfl
    exact hmet
  narrow := h.narrow
  kept := h.kept
  gained := h.gained

/-! ### Success -/

/-- The row holds each node once. -/
theorem Stacked.mem_made (h : Stacked tree leaves growth) {x : String} :
    x ∈ growth.made.map (·.id) ↔ growth.forest.contains x = true ∧ x ∉ leaves := by
  have w := h.wellFormed.toWired
  have hnd := w.nodeIds_nodup
  rw [← w.mem_nodeIds]
  rw [h.row.nodeIds] at hnd ⊢
  rw [List.mem_append]
  constructor
  · intro hx
    exact ⟨.inr hx, fun hleaf => (List.nodup_append'.mp hnd).2.2 hleaf hx⟩
  · intro ⟨hor, hout⟩
    exact hor.resolve_left hout

theorem Stacked.isLeaf_iff_mem (h : Stacked tree leaves growth) {x : String}
    (hx : growth.forest.contains x = true) : growth.forest.isLeaf x = true ↔ x ∈ leaves := by
  constructor
  · intro hleaf
    by_contra hout
    obtain ⟨n, hn, rfl⟩ := List.mem_map.mp (h.mem_made.mpr ⟨hx, hout⟩)
    cases hleaf.symm.trans (h.covering n hn)
  · exact h.bare x

/-- A stack whose last level is narrow enough, once its summaries are stored. -/
theorem Stacked.levelled (h : Stacked tree leaves growth)
    (ht : Terraced width leaves height [] level growth.forest) (hle : level.length ≤ width)
    (hstored : ∀ x ∈ leaves, store.contains x = true) (hadd : store.add growth.made false = .ok after) :
    Levelled growth.forest leaves width store after := by
  have w := h.wellFormed.toWired
  obtain ⟨hnd, hnew, rfl⟩ := NodeStore.add_eq_ok hadd
  have hrow : (leaves ++ growth.made.map (·.id)).Nodup := h.row.nodeIds ▸ w.nodeIds_nodup
  have hfresh (x : String) (hx : x ∈ growth.made.map (·.id)) : store.contains x = false := by
    obtain ⟨n, hn, rfl⟩ := List.mem_map.mp hx
    exact hnew rfl n hn
  constructor
  · exact h.wellFormed
  · exact (List.nodup_append.mp hrow).1
  · exact hstored
  · intro i x hx
    apply (h.row i x).mpr
    rwa [List.getElem?_append_left (List.getElem?_eq_some_iff.mp hx).1]
  · exact h.leafIds
  · refine ⟨height, fun p x hp hx => ?_⟩
    obtain ⟨d, below, hd, hsum, htiered⟩ := ht.tieredAt h.wellFormed hp
    cases htiered with
    | leaf bare =>
        cases hsum
        exact hd
    | inner children covers =>
        have hbare := h.bare x hx
        rw [isLeaf_of_childrenOf children, List.isEmpty_iff] at hbare
        exact (covers hbare).elim
  · obtain ⟨roots, met, hroots, hids, hwalk, hleaves⟩ := ht.walkedFromRoots w
    refine ⟨roots, met, hroots, ?_, fun ids => ⟨fun h => h.unique hwalk, ?_⟩, hleaves⟩
    · rwa [← hids, List.length_map] at hle
    · rintro rfl
      exact hwalk
  · intro x hx hout
    obtain ⟨p, hp⟩ := w.contains_iff.mp hx
    obtain ⟨d, below, _, _, htiered⟩ := ht.tieredAt h.wellFormed hp
    cases htiered with
    | leaf bare => exact (hout ((h.isLeaf_iff_mem hx).mp (isLeaf_of_childrenOf bare))).elim
    | inner children covers narrow => exact ⟨_, children, List.length_pos_iff.mpr covers, narrow⟩
  · intro x n hn
    apply (NodeStore.get?_foldl_put hnd).mpr
    refine .inr ⟨fun hmade => ?_, hn⟩
    cases (NodeStore.contains_iff.mpr ⟨n, hn⟩).symm.trans (hfresh x hmade)
  · intro x
    rw [NodeStore.contains_foldl_put hnd, ← h.mem_made]
    constructor
    · intro ⟨hor, hnone⟩
      refine hor.resolve_right fun hold => ?_
      cases hold.symm.trans hnone
    · intro hx
      exact ⟨.inl hx, hfresh x hx⟩

theorem terraced_empty (tree : String) (width : Nat) : Terraced width [] 0 [] [] { id := tree } where
  fronts := ⟨List.nodup_nil, fun x => by simp⟩
  doneOrdered := inOrder_nil _
  restOrdered := inOrder_nil _
  doneTiered := by simp
  restTiered := by simp
  walked := ⟨[], .nil, rfl⟩

theorem build_levelled (s : Summarizer σ) (width : Nat) (tree : String) (batch : List Node)
    (store : NodeStore) : Ends (build s width tree batch store)
    (fun g => Levelled g.1 (batch.map (·.id)) width store g.2) fun _ => True := by
  unfold build
  refine Ends.bind (Ends.checked _) fun _ hcheck => Ends.bind (Ends.checked _) fun planted hplanted => ?_
  have hwidth : 2 ≤ width := by
    unfold checkWidth at hcheck
    split at hcheck
    · cases hcheck
    · omega
  let level := batch.map fun n => (n.id, n.text)
  have hids : levelIds level = batch.map (·.id) := by simp [level, levelIds]
  have hstart : Stacked tree [] ⟨{ id := tree }, [], level⟩ :=
    ⟨rfl, wellFormed_empty tree none, by simpa using InRow.empty tree, rfl, by simp, by simp⟩
  obtain ⟨hstacked, hterraced, hstored⟩ := plant_terraced hstart (terraced_empty tree width) hplanted
  rw [List.nil_append] at hstacked hterraced
  have hbase : Terraced width (batch.map (·.id)) 0 [] (levelIds level) planted := by rwa [hids]
  refine Ends.bind (raise_terraced hwidth batch.length hstacked hbase (by simp)) fun g hg => ?_
  obtain ⟨hg, ⟨top, htop⟩, hle⟩ := hg
  have hlast (summary : Option String) : Ends (do
      let store ← liftM (store.add g.made false)
      return (({ g.forest with summary } : Forest), store) : Action σ Grove)
      (fun g => Levelled g.1 (batch.map (·.id)) width store g.2) fun _ => True := by
    refine Ends.bind (Ends.checked _) fun after hadd => Ends.pure ?_
    have hstored : ∀ x ∈ batch.map (·.id), store.contains x = true := by
      intro x hx
      obtain ⟨n, hn, rfl⟩ := List.mem_map.mp hx
      exact hstored n hn
    exact (hg.levelled htop (by simpa [levelIds] using hle) hstored hadd).setSummary summary
  refine Ends.ite ?_ ?_
  · exact Ends.bind (Ends.any _) fun summary _ => hlast summary
  · exact Ends.bind (Ends.any _) fun summary _ => hlast summary

/-! ### Failure -/

theorem get_bind_run {τ β : Type} (k : τ → Action τ β) (st : τ) : (get >>= k).run st = (k st).run st := rfl

theorem checked_bind_run {τ β : Type} (x : Except Failure α) (k : α → Action τ β) (st : τ) :
    ((liftM x : Action τ α) >>= k).run st = match x with
      | .ok a => (k a).run st
      | .error e => (.error e, st) := by
  cases x <;> rfl

theorem apart_run {τ : Type} (a : Action σ α) (st : τ × σ) :
    (apart a).run st = ((a.run st.2).1, (st.1, (a.run st.2).2)) := rfl

theorem putEach_run (store : NodeStore) (st : σ) :
    (putEach batch).run (store, st) = (.ok ⟨⟩, (batch.foldl NodeStore.put store, st)) := by
  induction batch generalizing store with
  | nil => rfl
  | cons n batch ih => exact ih (store.put n)

/-- A batch that is refused leaves the store as it was. -/
theorem addInPlace_run (store : NodeStore) (st : σ) :
    (addInPlace batch).run (store, st) = match store.add batch false with
      | .ok after => (.ok ⟨⟩, (after, st))
      | .error e => (.error e, (store, st)) := by
  unfold addInPlace NodeStore.add
  rw [get_bind_run]
  dsimp only
  cases store.refusal? false [] batch with
  | some r => rfl
  | none => exact putEach_run store st

/-- In place, a build does what it does elsewhere, and its store is the one the state is left with. -/
theorem buildInPlace_run (s : Summarizer σ) (width : Nat) (tree : String) (batch : List Node)
    (store : NodeStore) (st : σ) :
    (buildInPlace s width tree batch).run (store, st) =
      match (build s width tree batch store).run st with
      | (.ok (f, after), st') => (.ok f, (after, st'))
      | (.error e, st') => (.error e, (store, st')) := by
  -- both go through the same steps, and up to the last one the store is only read
  unfold buildInPlace build
  rw [checked_bind_run, checked_bind_run]
  cases checkWidth width with
  | error e => rfl
  | ok _ =>
      dsimp only
      rw [get_bind_run, checked_bind_run, checked_bind_run]
      cases plant store { id := tree } batch with
      | error e => rfl
      | ok planted =>
          dsimp only
          rw [run_bind, apart_run, run_bind]
          rcases (raise s width tree batch.length
            { forest := planted, level := batch.map fun n => (n.id, n.text) }).run st with ⟨r, st'⟩
          cases r with
          | error e => rfl
          | ok g =>
              have hlast (summary : Option String) (st : σ) : (do
                  addInPlace g.made
                  return { g.forest with summary } : Action (NodeStore × σ) Forest).run (store, st) =
                    match (do
                      let store ← liftM (store.add g.made false)
                      return ({ g.forest with summary }, store) : Action σ Grove).run st with
                    | (.ok (f, after), st') => (.ok f, (after, st'))
                    | (.error e, st') => (.error e, (store, st')) := by
                rw [run_bind, addInPlace_run, checked_bind_run]
                cases store.add g.made false <;> rfl
              dsimp only
              split
              · exact hlast none st'
              · rw [map_eq_pure_bind, map_eq_pure_bind, bind_assoc, bind_assoc, run_bind, apart_run, run_bind]
                dsimp only
                generalize (s.summarize (g.level.map (·.2))).run st' = out
                rcases out with ⟨r, st''⟩
                cases r with
                | error e => rfl
                | ok text => exact hlast (some text) st''

/-- A build ends with levels of at most `width` siblings on its leaves and their summaries in the store, or
it fails and the store is the one it was given. -/
theorem build_stands_in_levels (s : Summarizer σ) (width : Nat) (tree : String) (batch : List Node)
    (store : NodeStore) (st : σ) :
    match (build s width tree batch store).run st with
    | (.ok (f, after), st') => Levelled f (batch.map (·.id)) width store after ∧
        (buildInPlace s width tree batch).run (store, st) = (.ok f, (after, st'))
    | (.error e, st') => (buildInPlace s width tree batch).run (store, st) = (.error e, (store, st')) := by
  have hlevels := build_levelled s width tree batch store st
  have hrun := buildInPlace_run s width tree batch store st
  rcases hb : (build s width tree batch store).run st with ⟨r, st'⟩
  rw [hb] at hlevels hrun
  cases r with
  | error e => exact hrun
  | ok g => exact ⟨hlevels, hrun⟩

/-- Three leaves make a full group and one that is not, under two roots. -/
theorem build_stands_in_levels_threeNodes : ∃ f after,
    (build joining 2 "t" threeNodes threeStored).run () = (.ok (f, after), ()) ∧
      Levelled f ["a", "b", "c"] 2 threeStored after ∧
      f.roots.toList = [(3, summaryId "t" 3), (4, summaryId "t" 4)] := by
  have hbuild : ((build joining 2 "t" threeNodes threeStored).run ()).1.toOption.map (·.1.roots.toList) =
      some [(3, summaryId "t" 3), (4, summaryId "t" 4)] := by decide +kernel
  have hlevels := build_stands_in_levels joining 2 "t" threeNodes threeStored ()
  rcases hrun : (build joining 2 "t" threeNodes threeStored).run () with ⟨r, st⟩
  rw [hrun] at hbuild hlevels
  cases r with
  | error e => cases hbuild
  | ok g => exact ⟨g.1, g.2, rfl, hlevels.1, Option.some.inj hbuild⟩

end Forest
end CorpusIndex
