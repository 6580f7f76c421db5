import CorpusIndex.Proofs.Forest.Walks
import CorpusIndex.Proofs.Grove.Levels

/-!
# Tiers above leaves

Between two levels of a build, all roots are the same number of levels above the leaves. While a level is
covered, the summaries made already stand one level higher than the nodes still to be covered
(`Terraced`), and a walk over both in this order meets the leaves in the order in which they were given. A group
that is covered takes its part of the walk along, so the order is never lost.
-/
namespace CorpusIndex

variable {σ : Type}

namespace Forest
variable {s : Summarizer σ} {tree id : String} {f : Forest} {row leaves done group rest : List String}
  {adopted : SortedSet Nat} {growth : Growth} {width height p : Nat} {store : NodeStore} {batch : List Node}

/-! ### Roots in order -/

/-- The roots in order, read off. -/
theorem Fronts.childrenOf (w : f.Wired) (hroots : f.Fronts row) (hordered : f.InOrder row) :
    ∃ l, f.childrenOf none = .ok l ∧ l.map (·.2) = row := by
  obtain ⟨l, hl, rfl⟩ := hordered
  refine ⟨l, childrenOf_eq_ok.mpr ⟨by simp, hl, fun q => ?_⟩, rfl⟩
  constructor
  · intro ⟨y, hy⟩
    obtain ⟨e, he, rfl⟩ := List.mem_map.mp ((hroots.2 y).mpr ⟨q, hy⟩)
    cases w.position_eq ((w.roots_iff q e.2).mp hy).1 (hl.nodes e he)
    exact List.mem_map_of_mem he
  · intro hq
    obtain ⟨e, he, rfl⟩ := List.mem_map.mp hq
    obtain ⟨q, hq, hroot⟩ := (hroots.mem_iff w).mp (List.mem_map_of_mem he)
    cases w.position_eq hq (hl.nodes e he)
    exact hroot

/-! ### A level being covered -/

/-- The roots are the new summaries `done` and below them the nodes `rest` of the level that is covered,
`height` levels above the leaves. -/
structure Terraced (width : Nat) (leaves : List String) (height : Nat) (done rest : List String)
    (f : Forest) : Prop where
  fronts : f.Fronts (done ++ rest)
  doneOrdered : f.InOrder done
  restOrdered : f.InOrder rest
  doneTiered : ∀ x ∈ done, f.Tiered width (height + 1) x
  restTiered : ∀ x ∈ rest, f.Tiered width height x
  walked : ∃ met, f.Walk (done ++ rest) met ∧ met.filter f.isLeaf = leaves

namespace Terraced

/-- Leaves that nothing is above. -/
theorem plant (h : Terraced width row 0 [] row f) (w : f.WellFormed) (hp : f.nextPosition = .ok p)
    (hg : f.Graftable id none ∅ p) : Terraced width (row ++ [id]) 0 [] (row ++ [id]) (f.graft id none ∅ p) := by
  have hself : (f.graft id none ∅ p).childrenOf (some id) = .ok [] :=
    childrenOf_graft_self hg w.toWired ⟨.nil, by simp⟩ (by simp)
  obtain ⟨met, hwalk, hleaves⟩ := h.walked
  constructor
  · exact Fronts.plant h.fronts w hg
  · exact inOrder_nil _
  · exact h.restOrdered.snoc_graft hg hp
  · simp
  · intro x hx
    rcases List.mem_append.mp hx with hx | hx
    · exact (h.restTiered x hx).graft hg w.toWired
    · cases List.mem_singleton.mp hx
      exact .leaf hself
  · refine ⟨met ++ [id], (hwalk.graft hg w.toWired).append (.node hself .nil .nil), ?_⟩
    rw [List.filter_append, hwalk.filter_graft hg w.toWired, hleaves]
    simp [isLeaf_of_childrenOf hself]

/-- A level that is covered is the next to be. -/
theorem turn (h : Terraced width leaves height done [] f) : Terraced width leaves (height + 1) [] done f where
  fronts := by simpa using h.fronts
  doneOrdered := inOrder_nil _
  restOrdered := h.doneOrdered
  doneTiered := by simp
  restTiered := h.doneTiered
  walked := by simpa using h.walked

/-- The next group of the level is covered. -/
theorem cover (h : Terraced width leaves height done (group ++ rest) f) (w : f.WellFormed)
    (hne : group ≠ []) (hle : group.length ≤ width) (hp : f.nextPosition = .ok p)
    (hg : f.Graftable id none adopted p)
    (hadopted : ∀ q, q ∈ adopted ↔ ∃ c ∈ group, f.nodes.get? q = some c) :
    Terraced width leaves height (done ++ [id]) rest (f.graft id none adopted p) := by
  obtain ⟨l, hl, hids⟩ := h.restOrdered.sublist (List.sublist_append_left group rest)
  have hself : (f.graft id none adopted p).childrenOf (some id) = .ok l :=
    childrenOf_graft_self hg w.toWired hl (by rwa [hids])
  have hlne : l ≠ [] := by
    rintro rfl
    exact hne hids.symm
  have hsummary : (f.graft id none adopted p).isLeaf id = false := by
    rw [isLeaf_of_childrenOf hself, List.isEmpty_eq_false_iff]
    exact hlne
  constructor
  · simpa using Fronts.cover w hg h.fronts hadopted
  · exact h.doneOrdered.snoc_graft hg hp
  · exact (h.restOrdered.sublist (List.sublist_append_right group rest)).graft hg
  · intro x hx
    rcases List.mem_append.mp hx with hx | hx
    · exact (h.doneTiered x hx).graft hg w.toWired
    · cases List.mem_singleton.mp hx
      refine .inner hself hlne (by rwa [← hids, List.length_map] at hle) fun e he => ?_
      have hin : e.2 ∈ group := hids ▸ List.mem_map_of_mem he
      exact (h.restTiered e.2 (List.mem_append_left _ hin)).graft hg w.toWired
  · intro x hx
    exact (h.restTiered x (List.mem_append_right _ hx)).graft hg w.toWired
  · obtain ⟨met, hwalk, hleaves⟩ := h.walked
    obtain ⟨before, after, hbefore, hafter, rfl⟩ := hwalk.split
    obtain ⟨inside, beyond, hinside, hbeyond, rfl⟩ := hafter.split
    -- the group is walked where it was, only below its summary
    have hcovered : (f.graft id none adopted p).Walk [id] (id :: (inside ++ [])) :=
      .node hself (hids.symm ▸ hinside.graft hg w.toWired) .nil
    refine ⟨before ++ id :: (inside ++ []) ++ beyond, ?_, ?_⟩
    · exact ((hbefore.graft hg w.toWired).append hcovered).append (hbeyond.graft hg w.toWired)
    · rw [← hleaves]
      simp [hsummary, hbefore.filter_graft hg w.toWired, hinside.filter_graft hg w.toWired,
        hbeyond.filter_graft hg w.toWired]

/-- Between levels every node is as far above the leaves as its depth leaves room for. -/
theorem tieredAt (h : Terraced width leaves height [] row f) (w : f.WellFormed) {x : String}
    (hp : f.nodes.get? p = some x) :
    ∃ d below, f.Depth p d ∧ d + below = height ∧ f.Tiered width below x := by
  have hroot (q : Nat) (y : String) (hy : f.nodes.get? q = some y) (hq : f.IsRoot q) :
      f.Tiered width height y := by
    have hin : y ∈ [] ++ row := (h.fronts.mem_iff w.toWired).mpr ⟨q, hy, hq⟩
    exact h.restTiered y (by simpa using hin)
  obtain ⟨d, hd⟩ := w.rooted.depth hp
  obtain ⟨below, hsum, htiered⟩ := Tiered.along hroot hd hp
  exact ⟨d, below, hd, hsum, htiered⟩

/-- Between levels a walk from the roots meets the leaves in order. -/
theorem walkedFromRoots (h : Terraced width leaves height [] row f) (w : f.Wired) :
    ∃ roots met, f.childrenOf none = .ok roots ∧ roots.map (·.2) = row ∧
      f.Walk (roots.map (·.2)) met ∧ met.filter f.isLeaf = leaves := by
  have hfronts : f.Fronts row := by simpa using h.fronts
  obtain ⟨roots, hroots, rfl⟩ := hfronts.childrenOf w h.restOrdered
  obtain ⟨met, hwalk, hleaves⟩ := h.walked
  exact ⟨roots, met, hroots, rfl, by simpa using hwalk, hleaves⟩

end Terraced

/-! ### A build -/

theorem plant_terraced {planted : Forest} {level : List (String × String)}
    (h : Stacked tree row ⟨f, [], level⟩) (ht : Terraced width row 0 [] row f)
    (hplant : plant store f batch = .ok planted) :
    Stacked tree (row ++ batch.map (·.id)) ⟨planted, [], level⟩ ∧
      Terraced width (row ++ batch.map (·.id)) 0 [] (row ++ batch.map (·.id)) planted ∧
        ∀ n ∈ batch, store.contains n.id = true := by
  induction batch generalizing f row with
  | nil =>
      cases hplant
      simpa using ⟨h, ht⟩
  | cons n batch ih =>
      have w := h.wellFormed
      have hrow : f.InRow row := by simpa using h.row
      obtain ⟨m, hm, hplant⟩ := bind_eq_ok.mp hplant
      obtain ⟨⟨f', p⟩, hins, hplant⟩ := bind_eq_ok.mp hplant
      obtain ⟨below, hp, hgraft, rfl, hbelow⟩ := insert_eq_ok w.toWired hins
      have hempty : below = ∅ := SortedSet.ext fun q => by simp [hbelow]
      subst hempty
      cases hrow.eq_of_nextPosition hp
      obtain ⟨hstacked, hterraced, hstored⟩ := ih (h.plant hgraft) (ht.plant w hp hgraft) hplant
      rw [List.append_assoc, List.singleton_append] at hstacked hterraced
      refine ⟨hstacked, hterraced, List.forall_mem_cons.mpr ⟨?_, hstored⟩⟩
      exact NodeStore.contains_iff.mpr ⟨m, NodeStore.node_eq_ok.mp hm⟩

/-- Groups of the level are covered one after another. -/
theorem coverGroups_terraced (parts : List (List (String × String)))
    (hparts : ∀ group ∈ parts, group ≠ [] ∧ group.length ≤ width) (h : Stacked tree leaves growth)
    (ht : Terraced width leaves height (levelIds growth.level) (levelIds parts.flatten) growth.forest) :
    Ends (coverGroups s tree growth parts) (fun g => Stacked tree leaves g ∧
      Terraced width leaves height (levelIds g.level) [] g.forest ∧
        g.level.length = growth.level.length + parts.length) fun _ => True := by
  induction parts generalizing growth with
  | nil => exact Ends.pure ⟨h, ht, rfl⟩
  | cons group parts ih =>
      have w := h.wellFormed
      obtain ⟨hne, hle⟩ := hparts group List.mem_cons_self
      have hids : levelIds (group :: parts).flatten = levelIds group ++ levelIds parts.flatten := by
        simp [levelIds]
      rw [hids] at ht
      unfold coverGroups
      refine Ends.bind (Ends.any _) fun text _ => Ends.bind (Ends.checked _) fun p hp => ?_
      refine Ends.bind (Ends.checked _) fun r hr => ?_
      obtain ⟨f, q⟩ := r
      obtain ⟨below, hq, hgraft, rfl, hbelow⟩ := insert_eq_ok w.toWired hr
      cases Except.ok.inj hq
      have hplace : p = leaves.length + growth.made.length := by
        simpa using h.row.eq_of_nextPosition hp
      have hfull : levelIds group ≠ [] := by simpa [levelIds] using hne
      have hcovered := ht.cover w hfull (by simpa [levelIds] using hle) hp hgraft hbelow
      have hsome : ∃ q, q ∈ below := by
        obtain ⟨c, hc⟩ := List.exists_mem_of_ne_nil _ hfull
        obtain ⟨q, hq⟩ := (ht.fronts.2 c).mp (by simp [hc])
        exact ⟨q, (hbelow q).mpr ⟨c, hc, ((w.roots_iff q c).mp hq).1⟩⟩
      apply (ih (fun group hgroup => hparts group (List.mem_cons_of_mem _ hgroup))
        (h.cover hplace hgraft hsome text _ _) (by simpa [levelIds] using hcovered)).imp
      · intro g hg
        obtain ⟨hstacked, hterraced, hlength⟩ := hg
        refine ⟨hstacked, hterraced, ?_⟩
        simp only [List.length_append, List.length_cons, List.length_nil] at hlength ⊢
        omega
      · exact fun _ h => h

/-- Levels are raised until one is narrow enough: each is at most two thirds as wide as the one below, so
there are fewer levels than leaves. -/
theorem raise_terraced (hwidth : 2 ≤ width) (fuel : Nat) (h : Stacked tree leaves growth)
    (ht : Terraced width leaves height [] (levelIds growth.level) growth.forest)
    (hfuel : growth.level.length ≤ fuel + 2) :
    Ends (raise s width tree fuel growth) (fun g => Stacked tree leaves g ∧
      (∃ top, Terraced width leaves top [] (levelIds g.level) g.forest) ∧ g.level.length ≤ width)
      fun _ => True := by
  induction fuel generalizing growth height with
  | zero => exact Ends.pure ⟨h, ⟨height, ht⟩, by omega⟩
  | succ fuel ih =>
      unfold raise
      split
      next hnarrow => exact Ends.pure ⟨h, ⟨height, ht⟩, hnarrow⟩
      next hwide =>
        have hhalf := length_groups_le hwidth growth.level
        have hstart : Stacked tree leaves { growth with level := [] } :=
          ⟨h.id_eq, h.wellFormed, h.row, h.made, h.bare, h.covering⟩
        have hparts : ∀ group ∈ groups width growth.level, group ≠ [] ∧ group.length ≤ width := by
          intro group hgroup
          have hle := length_of_mem_groups hgroup
          exact ⟨ne_nil_of_mem_groups hgroup, by omega⟩
        have hrest : Terraced width leaves height (levelIds []) (levelIds (groups width growth.level).flatten)
            growth.forest := by
          rwa [flatten_groups]
        refine Ends.bind (coverGroups_terraced _ hparts hstart hrest) fun g hg => ?_
        obtain ⟨hstacked, hterraced, hlength⟩ := hg
        apply ih hstacked hterraced.turn
        simp only [List.length_nil, Nat.zero_add] at hlength
        omega

end Forest
end CorpusIndex
