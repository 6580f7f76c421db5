import CorpusIndex.Proofs.Grove.Layers

/-!
# Given nodes

Of a node the store was given, nothing changes but its text, and that only once the node has children. A
node of a document gets some when an insertion follows it, and an insertion follows only nodes that have
siblings with children. While the selectors of a run always pick, no level mixes leaves and inner nodes, so
that never happens; after an insertion without a pick it can.
-/
namespace CorpusIndex.Forest

variable {t : Terms} {tree : String} {f : Forest} {store given : NodeStore} {g : Grove} {id : String}

/-- What was given is stored, with the texts of nodes with children at most changed, and the stored nodes of
documents were given. -/
structure Kept (given : NodeStore) (g : Grove) : Prop where
  stored : ∀ id m, given.nodes.get? id = some m → ∃ n, g.2.nodes.get? id = some n ∧
    n = { m with text := n.text } ∧ (g.1.isLeaf id = true → n = m)
  documented : ∀ id n, g.2.nodes.get? id = some n → n.document.isSome = true → given.contains id = true

/-- Another forest with as many inner nodes. -/
theorem Kept.of_forest {f' : Forest} (h : Kept given (f, store))
    (hleaf : ∀ x, f'.isLeaf x = true → f.isLeaf x = true) : Kept given (f', store) := by
  refine ⟨fun id m hm => ?_, h.documented⟩
  obtain ⟨n, hn, htext, hsame⟩ := h.stored id m hm
  exact ⟨n, hn, htext, fun hf => hsame (hleaf id hf)⟩

/-- A derived node enters the store under a new id. -/
theorem Kept.put {n : Node} (h : Kept given (f, store)) (hnew : store.contains n.id = false)
    (hn : n.document = none) : Kept given (f, store.put n) := by
  refine ⟨fun id m hm => ?_, fun id m hm hdocument => ?_⟩
  · obtain ⟨k, hk, hkept⟩ := h.stored id m hm
    refine ⟨k, SortedMap.get?_insert_eq_some.mpr (.inr ⟨?_, hk⟩), hkept⟩
    rintro rfl
    cases (NodeStore.contains_iff.mpr ⟨k, hk⟩).symm.trans hnew
  · rcases SortedMap.get?_insert_eq_some.mp hm with ⟨_, rfl⟩ | ⟨_, hm⟩
    · rw [hn] at hdocument
      cases hdocument
    · exact h.documented id m hm hdocument

/-- A node with children gets another text. -/
theorem Kept.setText {a : String} {n : Node} (h : Kept given (f, store)) (hinner : ∃ q, f.Holds a q)
    (hn : store.nodes.get? a = some n) (text : String) :
    Kept given (f, ⟨store.nodes.insert a { n with text }⟩) := by
  refine ⟨fun id m hm => ?_, fun id m hm hdocument => ?_⟩
  · obtain ⟨k, hk, htext, hsame⟩ := h.stored id m hm
    by_cases hid : id = a
    · subst hid
      cases hn.symm.trans hk
      refine ⟨{ n with text }, SortedMap.get?_insert_self .., ?_, fun hleaf => ?_⟩
      · rw [htext]
      · cases hleaf.symm.trans (not_isLeaf_iff.mpr hinner)
    · exact ⟨k, (SortedMap.get?_insert_of_ne _ _ hid).trans hk, htext, hsame⟩
  · rcases SortedMap.get?_insert_eq_some.mp hm with ⟨rfl, rfl⟩ | ⟨_, hm⟩
    · exact h.documented id n hn hdocument
    · exact h.documented id m hm hdocument

theorem stable_kept (t : Terms) (id : String) (given : NodeStore) : Stable t id (Kept given) where
  attach hg h _ _ hgraft := h.of_forest fun _ => hgraft.isLeaf_of_graft hg.wellFormed.toWired
  cover {g g' parent group} hg h hc := by
    obtain ⟨p, hc, hnew⟩ := hc
    cases hc with
    | @mk f store adopted text next graft adopts ordered answer =>
        have hfresh : store.contains (summaryNode (summaryId f.id p) text group).id = false := by
          rwa [summaryNode_id]
        exact (h.put hfresh (summaryNode_document ..)).of_forest fun _ =>
          graft.isLeaf_of_graft hg.wellFormed.toWired
  rewrite text _ h hinner hn := h.setText hinner hn text

/-- What a build adds to the store is derived. -/
theorem builds_documented (t : Terms) (store : NodeStore) : Builds t store fun _ _ g =>
    ∀ id n, g.2.nodes.get? id = some n → n.document.isSome = true → store.contains id = true where
  plant _ h _ _ _ _ := h
  turn _ h := h
  cover _ h _ hc := by
    intro id n hn hdocument
    cases hc with
    | mk next graft adopts ordered answer =>
        rcases SortedMap.get?_insert_eq_some.mp hn with ⟨_, rfl⟩ | ⟨_, hn⟩
        · rw [summaryNode_document] at hdocument
          cases hdocument
        · exact h id n hn hdocument

theorem lasting_kept (t : Terms) (tree : String) : Lasting t tree Kept where
  built {store} _ := ⟨_, builds_documented t store, fun id n hn _ => NodeStore.contains_iff.mpr ⟨n, hn⟩,
    fun _ hdocumented hstored => ⟨fun id m hm => ⟨m, hstored id m hm, rfl, fun _ => rfl⟩, hdocumented⟩⟩
  entered {given g batch} hnd _ _ _ h := by
    refine ⟨fun id m hm => ?_, fun id n hn hdocument => ?_⟩
    · rcases (NodeStore.get?_foldl_put hnd).mp hm with hin | ⟨hout, hm⟩
      · exact ⟨m, (NodeStore.get?_foldl_put hnd).mpr (.inl hin), rfl, fun _ => rfl⟩
      · obtain ⟨n, hn, hkept⟩ := h.stored id m hm
        exact ⟨n, (NodeStore.get?_foldl_put hnd).mpr (.inr ⟨hout, hn⟩), hkept⟩
    · rw [NodeStore.contains_foldl_put hnd]
      rcases (NodeStore.get?_foldl_put hnd).mp hn with ⟨hin, rfl⟩ | ⟨_, hn⟩
      · exact .inl (List.mem_map_of_mem hin)
      · exact .inr (h.documented id n hn hdocument)
  inserted {given g g' width id} _ _ _ hg h hinserted := hinserted.keeps (stable_kept t id given) hg h

/-- All along a run every node that was given is stored as it was, but for its text if it has children since,
and no other node of a document is stored. As long as the selectors always pick, no node of a document ever
has children. -/
theorem given_nodes_keep_texts_while_leaves (h : Extended t tree given g) :
    (∀ id m, given.nodes.get? id = some m → ∃ n, g.2.nodes.get? id = some n ∧
      n = { m with text := n.text } ∧ (g.1.isLeaf id = true → n = m) ∧
        (t.decisive → m.document.isSome = true → g.1.isLeaf id = true)) ∧
    ∀ id n, g.2.nodes.get? id = some n → n.document.isSome = true → given.contains id = true := by
  obtain ⟨_, _, hkept⟩ := h.lasts (lasting_kept t tree)
  obtain ⟨_, _, hlayered⟩ := h.lasts (lasting_layered t tree)
  refine ⟨fun id m hm => ?_, hkept.documented⟩
  obtain ⟨n, hn, htext, hsame⟩ := hkept.stored id m hm
  refine ⟨n, hn, htext, hsame, fun hd hdocument => ?_⟩
  rw [← Bool.not_eq_false]
  intro hinner
  obtain ⟨k, hk, hnone⟩ := (hlayered hd).derived id hinner
  cases hn.symm.trans hk
  have hsource : n.document = m.document := by rw [htext]
  rw [← hsource, hnone] at hdocument
  cases hdocument

/-- The four nodes are stored as they were given, selectors that always pick presumed. -/
theorem given_nodes_keep_texts_while_leaves_lengthened : ∃ g, lengthened = .ok g ∧
    ∀ id m, (threeStored.put fourthNode).nodes.get? id = some m → g.2.nodes.get? id = some m := by
  have hends : lengthened.toOption.map (fun _ => ()) = some () := by decide +kernel
  have hdocuments : ∀ m ∈ (threeStored.put fourthNode).nodes.values, m.document.isSome = true := by decide
  obtain ⟨g, hrun, _⟩ := map_toOption_eq_some.mp hends
  have hextended : Extended { decisive := True } "t" (threeStored.put fourthNode) g :=
    extended_lengthened (fun _ => Ends.any _) hrun
  refine ⟨g, hrun, fun id m hm => ?_⟩
  obtain ⟨n, hn, _, hsame, hleaf⟩ := (given_nodes_keep_texts_while_leaves hextended).1 id m hm
  have hdocument := hdocuments m (SortedMap.mem_values.mpr ⟨id, hm⟩)
  rwa [hsame (hleaf trivial hdocument)] at hn

/-! ### A node of a document that is followed -/

/-- The last candidate is followed for one text, and none for any other. -/
def followingFor (text : String) : Selector Unit :=
  ⟨fun query candidates _ => pure (if query.text = text then lastPlace candidates else [])⟩

def sevenNodes : List Node :=
  threeNodes ++ [fourthNode, { id := "e", text := "v", document := some "C" },
    { id := "f", text := "u", document := some "C" }, { id := "g", text := "r", document := some "C" }]

/-- The sixth of seven new nodes is not placed below a summary, and the seventh is placed below the sixth,
whose text is written anew. -/
theorem insertion_rewrites_given_node : (∃ g,
      (grow joining (followingFor "r") 4 sevenNodes ({ id := "t" }, {})).run () = (.ok g, ()) ∧
      g.1.isLeaf "f" = false ∧ (g.2.nodes.get? "f").map (·.text) = some "r") ∧
    (followingFor "r").InRange ∧ (∀ n ∈ sevenNodes, n.document.isSome = true) ∧
    ∀ n ∈ sevenNodes, n.id = "f" → n.text = "u" := by
  have hrewritten : ((grow joining (followingFor "r") 4 sevenNodes ({ id := "t" }, {})).run ()).1.toOption.map
      (fun g => (g.1.isLeaf "f", (g.2.nodes.get? "f").map (·.text))) = some (false, some "r") := by
    decide +kernel
  obtain ⟨g, hrun, hread⟩ := map_toOption_eq_some.mp hrewritten
  refine ⟨⟨g, Prod.ext hrun rfl, Prod.mk.inj hread⟩, fun query candidates most => Ends.pure fun pick hpick => ?_,
    by decide, by decide⟩
  split at hpick
  next => exact lastPlace_lt hpick
  next => cases hpick

end CorpusIndex.Forest
