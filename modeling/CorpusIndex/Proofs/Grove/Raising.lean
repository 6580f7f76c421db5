import CorpusIndex.Proofs.Grove.Levels
import CorpusIndex.Proofs.Grove.Steps

/-!
# What a build does

While a forest is raised, the summaries made so far count as stored: then every group is covered as a split
covers its halves, and leaves are attached as an insertion attaches a node. A property of forest, store and
current level that these steps keep holds of every build that succeeds (`build_keeps`).
-/
namespace CorpusIndex.Forest

variable {σ : Type} {s : Summarizer σ} {t : Terms} {tree : String} {f : Forest} {store : NodeStore}
  {g : Growth} {level rest : List (String × String)} {leaves : List Node} {width : Nat}
  {I : List String → List String → Grove → Prop}

/-- The forest so far, above the store with the summaries made for it. -/
def Growth.grove (g : Growth) (store : NodeStore) : Grove := (g.forest, g.made.foldl NodeStore.put store)

/-- Entries of a level are nodes of the forest, and their texts the ones they are stored with. -/
def Known (t : Terms) (g : Grove) (level : List (String × String)) : Prop :=
  ∀ e ∈ level, g.1.contains e.1 = true ∧ (t.current → ∃ n, g.2.nodes.get? e.1 = some n ∧ n.text = e.2)

/-- A property of the nodes that are done at a level, those still to be covered, and forest and store, which
every step of a build over `store` keeps. -/
structure Builds (t : Terms) (store : NodeStore) (I : List String → List String → Grove → Prop) : Prop where
  plant : ∀ {f : Forest} {done : List String} {id : String} {p : Nat}, Grounded (f, store) →
    I done [] (f, store) → (∀ x q, ¬ f.Holds x q) → store.contains id = true →
      f.nextPosition = .ok p → f.Graftable id none ∅ p → I (done ++ [id]) [] (f.graft id none ∅ p, store)
  turn : ∀ {g : Grove} {done : List String}, Grounded g → I done [] g → I [] done g
  cover : ∀ {g g' : Grove} {done group rest : List String} {p : Nat}, Grounded g →
    I done (group ++ rest) g → group ≠ [] → Covered t none group p g g' →
      I (done ++ [summaryId g.1.id p]) rest g'

/-- A forest being raised, with the entries that are still to be covered at the current level. -/
structure Raising (t : Terms) (tree : String) (store : NodeStore)
    (I : List String → List String → Grove → Prop) (rest : List (String × String)) (g : Growth) : Prop where
  id_eq : g.forest.id = tree
  grounded : Grounded (g.grove store)
  keeps : I (levelIds g.level) (levelIds rest) (g.grove store)
  doneOrdered : g.forest.InOrder (levelIds g.level)
  restOrdered : g.forest.InOrder (levelIds rest)
  doneKnown : Known t (g.grove store) g.level
  restKnown : Known t (g.grove store) rest

/-! ### Groups -/

theorem textsOf_known (h : ∀ e ∈ level, ∃ n, store.nodes.get? e.1 = some n ∧ n.text = e.2) :
    textsOf store (levelIds level) = .ok (level.map (·.2)) := by
  have hresolve : ∀ {level : List (String × String)},
      (∀ e ∈ level, ∃ n, store.nodes.get? e.1 = some n ∧ n.text = e.2) →
        ∃ ns, store.resolveAll (levelIds level) = .ok ns ∧ ns.map (·.text) = level.map (·.2) := by
    intro level h
    induction level with
    | nil => exact ⟨[], rfl, rfl⟩
    | cons e level ih =>
        obtain ⟨n, hn, htext⟩ := h e (by simp)
        obtain ⟨ns, hns, htexts⟩ := ih fun d hd => h d (by simp [hd])
        refine ⟨n :: ns, ?_, by simp [htext, htexts]⟩
        rw [NodeStore.resolveAll] at hns ⊢
        rw [levelIds, List.map_cons, List.mapM_cons, NodeStore.resolve_eq_ok.mpr hn, ok_bind]
        rw [levelIds] at hns
        rw [hns]
        rfl
  obtain ⟨ns, hns, htexts⟩ := hresolve h
  rw [textsOf, hns, ok_bind, htexts]
  rfl

/-! ### One summary -/

theorem known_nil {g : Grove} : Known t g [] := fun _ he => by cases he

theorem Known.mono {g g' : Grove} (h : Known t g level)
    (hkeep : ∀ x, g.1.contains x = true → g'.1.contains x = true ∧ g'.2.nodes.get? x = g.2.nodes.get? x) :
    Known t g' level := by
  intro e he
  obtain ⟨hin, htext⟩ := h e he
  obtain ⟨hin', hsame⟩ := hkeep e.1 hin
  refine ⟨hin', fun ht => ?_⟩
  rw [hsame]
  exact htext ht

/-- A group of the current level is covered by a summary of its texts. -/
theorem Raising.cover {group : List (String × String)} (hI : Builds t store I)
    (h : Raising t tree store I (group ++ rest) g) (hne : group ≠ []) {text : String}
    (hanswer : t.answers (group.map (·.2)) text) {p : Nat} (hp : g.forest.nextPosition = .ok p)
    {f : Forest} {q : Nat} (hr : g.forest.insert (summaryId tree p) (some p) (levelIds group) = .ok (f, q)) :
    Raising t tree store I rest ⟨f, g.made ++ [summaryNode (summaryId tree p) text (levelIds group)],
      g.level ++ [(summaryId tree p, text)]⟩ := by
  have hid : g.forest.id = tree := h.id_eq
  subst hid
  have w : g.forest.Wired := h.grounded.wellFormed.toWired
  obtain ⟨below, hq, hgraft, rfl, hbelow⟩ := insert_eq_ok w hr
  cases Except.ok.inj hq
  let id := summaryId g.forest.id p
  let summary := summaryNode id text (levelIds group)
  let after : Grove := (g.forest.graft id none below p, (g.grove store).2.put summary)
  have hgrove : Growth.grove ⟨g.forest.graft id none below p, g.made ++ [summary], g.level ++ [(id, text)]⟩
      store = after := Prod.ext rfl (List.foldl_concat ..)
  have hsplit : levelIds (group ++ rest) = levelIds group ++ levelIds rest := List.map_append
  have hordered : g.forest.InOrder (levelIds group) := by
    apply h.restOrdered.sublist
    rw [hsplit]
    exact List.sublist_append_left ..
  have hcovered : Covered t none (levelIds group) p (g.grove store) after := by
    apply Covered.mk hp hgraft hbelow hordered
    intro ht
    exact ⟨_, textsOf_known fun e he => (h.restKnown e (by simp [he])).2 ht, hanswer⟩
  have hsnoc : levelIds (g.level ++ [(id, text)]) = levelIds g.level ++ [id] := List.map_append
  change Raising t g.forest.id store I rest
    ⟨g.forest.graft id none below p, g.made ++ [summary], g.level ++ [(id, text)]⟩
  constructor
  · rfl
  · rw [hgrove]
    exact hcovered.grounded h.grounded
  · rw [hgrove, hsnoc]
    apply hI.cover h.grounded (hsplit ▸ h.keeps) _ hcovered
    simpa [levelIds] using hne
  · rw [hsnoc]
    exact h.doneOrdered.snoc_graft hgraft hp
  · apply InOrder.graft hgraft
    apply h.restOrdered.sublist
    rw [hsplit]
    exact List.sublist_append_right ..
  · rw [hgrove]
    intro e he
    rcases List.mem_append.mp he with he | he
    · exact h.doneKnown.mono (fun x hx => hcovered.keeps_nodes hx) e he
    · cases List.mem_singleton.mp he
      refine ⟨contains_graft.mpr (.inl rfl), fun _ => ⟨summary, ?_, summaryNode_text ..⟩⟩
      exact SortedMap.get?_insert_eq_some.mpr (.inl ⟨(summaryNode_id ..).symm, rfl⟩)
  · rw [hgrove]
    apply Known.mono (g := g.grove store)
    · exact fun e he => h.restKnown e (by simp [he])
    · exact fun x hx => hcovered.keeps_nodes hx

/-! ### Levels -/

section Build
variable (hs : s.Within t.answers) (hI : Builds t store I)
include hs hI

theorem coverGroups_raises (parts : List (List (String × String))) (hfull : ∀ group ∈ parts, group ≠ [])
    (h : Raising t tree store I parts.flatten g) :
    Ends (coverGroups s tree g parts) (Raising t tree store I []) fun _ => True := by
  induction parts generalizing g with
  | nil => exact Ends.pure h
  | cons group parts ih =>
      unfold coverGroups
      refine Ends.bind (hs _) fun text hanswer => Ends.bind (Ends.checked _) fun p hp => ?_
      refine Ends.bind (Ends.checked _) fun r hr => ?_
      apply ih
      · exact fun group hgroup => hfull group (by simp [hgroup])
      · exact h.cover hI (hfull group (by simp)) hanswer hp hr

theorem raise_raises (fuel : Nat) (h : Raising t tree store I [] g) :
    Ends (raise s width tree fuel g) (Raising t tree store I []) fun _ => True := by
  induction fuel generalizing g with
  | zero => exact Ends.pure h
  | succ fuel ih =>
      unfold raise
      refine Ends.ite (Ends.pure h) ?_
      have hturn : Raising t tree store I (groups width g.level).flatten { g with level := [] } := by
        rw [flatten_groups]
        exact ⟨h.id_eq, h.grounded, hI.turn h.grounded h.keeps, inOrder_nil _, h.doneOrdered,
          known_nil, h.doneKnown⟩
      have hfull : ∀ group ∈ groups width g.level, group ≠ [] := fun _ hgroup => ne_nil_of_mem_groups hgroup
      exact Ends.bind (coverGroups_raises hs hI _ hfull hturn) fun g hg => ih hg

end Build

/-! ### Leaves -/

/-- A new root that adopts nothing leaves nothing below any node. -/
theorem Graftable.bare_graft {id : String} {p : Nat} (h : f.Graftable id none ∅ p) (w : f.Wired)
    (hbare : ∀ x q, ¬ f.Holds x q) (x : String) (q : Nat) : ¬ (f.graft id none ∅ p).Holds x q := by
  simp [h.holds_graft w, hbare]

/-- Stored leaves are attached one after another. -/
theorem plant_keeps {done : List String} {f' : Forest} (hI : Builds t store I) (hg : Grounded (f, store))
    (hdone : I done [] (f, store)) (hordered : f.InOrder done) (hbare : ∀ x q, ¬ f.Holds x q)
    (h : plant store f leaves = .ok f') : f'.id = f.id ∧ Grounded (f', store) ∧
      I (done ++ leaves.map (·.id)) [] (f', store) ∧ f'.InOrder (done ++ leaves.map (·.id)) ∧
        ∀ x, f.contains x = true ∨ x ∈ leaves.map (·.id) → f'.contains x = true := by
  induction leaves generalizing f done with
  | nil =>
      cases h
      simpa using ⟨hg, hdone, hordered⟩
  | cons n leaves ih =>
      have w := hg.wellFormed.toWired
      obtain ⟨m, hm, h⟩ := bind_eq_ok.mp h
      obtain ⟨⟨f₁, p⟩, hins, h⟩ := bind_eq_ok.mp h
      obtain ⟨below, hp, hgraft, rfl, hbelow⟩ := insert_eq_ok w hins
      have hempty : below = ∅ := SortedSet.ext fun q => by simp [hbelow]
      subst hempty
      have hstored : store.contains n.id = true := NodeStore.contains_iff.mpr ⟨m, NodeStore.node_eq_ok.mp hm⟩
      obtain ⟨hid, hg', hI', hordered', hin⟩ := ih (hg.graft hgraft hstored)
        (hI.plant hg hdone hbare hstored hp hgraft) (hordered.snoc_graft hgraft hp) (hgraft.bare_graft w hbare) h
      rw [List.append_assoc, List.singleton_append] at hI' hordered'
      refine ⟨hid, hg', hI', hordered', fun x hx => hin x ?_⟩
      rw [List.map_cons, List.mem_cons] at hx
      rcases hx with hx | rfl | hx
      · exact .inl (contains_graft.mpr (.inr hx))
      · exact .inl (contains_graft.mpr (.inl rfl))
      · exact .inr hx

/-- What every step keeps holds of a forest that is built, and of the store with its summaries. Nodes that
were stored are as they were. -/
theorem build_keeps (hs : s.Within t.answers) (hI : Builds t store I) (k : store.Keyed)
    (hempty : I [] [] ({ id := tree }, store))
    (hleaves : t.current → ∀ n ∈ leaves, store.nodes.get? n.id = some n) :
    Ends (build s width tree leaves store) (fun g => ∃ f summary level, g.1 = { f with summary } ∧
      Grounded (f, g.2) ∧ I level [] (f, g.2) ∧
        ∀ id n, store.nodes.get? id = some n → g.2.nodes.get? id = some n) fun _ => True := by
  unfold build
  refine Ends.bind (Ends.any _) fun _ _ => Ends.bind (Ends.checked _) fun planted hplanted => ?_
  have hstart : Grounded (({ id := tree } : Forest), store) :=
    ⟨wellFormed_empty tree none, k, fun x hx => by cases hx⟩
  have hbare : ∀ x q, ¬ ({ id := tree } : Forest).Holds x q := fun x q hq => SortedSet.not_mem_empty q hq
  obtain ⟨hid, hg, hkept, hordered, hin⟩ :=
    plant_keeps hI hstart hempty (inOrder_nil _) hbare hplanted
  have hids : levelIds (leaves.map fun n => (n.id, n.text)) = leaves.map (·.id) := by simp [levelIds]
  have hplant : Raising t tree store I []
      { forest := planted, level := leaves.map fun n => (n.id, n.text) } := by
    refine ⟨hid, hg, hids ▸ hkept, hids ▸ hordered, inOrder_nil _, fun e he => ?_, known_nil⟩
    obtain ⟨n, hn, rfl⟩ := List.mem_map.mp he
    exact ⟨hin n.id (.inr (List.mem_map_of_mem hn)), fun ht => ⟨n, hleaves ht n hn, rfl⟩⟩
  refine Ends.bind (raise_raises hs hI leaves.length hplant) fun g hg => ?_
  have hlast (summary : Option String) : Ends (do
      let store ← liftM (store.add g.made false)
      return (({ g.forest with summary } : Forest), store) : Action σ Grove)
      (fun g => ∃ f summary level, g.1 = { f with summary } ∧ Grounded (f, g.2) ∧
        I level [] (f, g.2) ∧ ∀ id n, store.nodes.get? id = some n → g.2.nodes.get? id = some n)
      fun _ => True := by
    refine Ends.bind (Ends.checked _) fun after hadd => Ends.pure ?_
    obtain ⟨hnd, hnew, rfl⟩ := NodeStore.add_eq_ok hadd
    refine ⟨g.forest, summary, levelIds g.level, rfl, hg.grounded, hg.keeps, fun id n hn => ?_⟩
    refine (NodeStore.get?_foldl_put hnd).mpr (.inr ⟨fun hmade => ?_, hn⟩)
    obtain ⟨m, hm, rfl⟩ := List.mem_map.mp hmade
    cases (NodeStore.contains_iff.mpr ⟨n, hn⟩).symm.trans (hnew rfl m hm)
  refine Ends.ite ?_ ?_
  · exact Ends.bind (Ends.any _) fun summary _ => hlast summary
  · exact Ends.bind (Ends.any _) fun summary _ => hlast summary

end CorpusIndex.Forest
