import CorpusIndex.Build.Tree
import CorpusIndex.Proofs.Forest.Siblings
import CorpusIndex.Proofs.NodeStore

/-!
# Forests beside the store of their nodes

`Tended` is what every step on a forest and its store keeps: all nodes of the forest are stored, and a
stored summary stands at the position its id names. The ids in `pending` are stored and still to be
inserted. A graft whose new node is stored keeps a forest tended (`Tended.graft`).
-/
namespace CorpusIndex.Forest

variable {tree : String} {f : Forest} {store store' : NodeStore} {pending ids : List String}
  {id : String} {parent : Option String} {adopted : SortedSet Nat} {p q : Nat}

/-- Positions are told apart by the ids of their summaries. -/
theorem summaryId_injective (h : summaryId tree p = summaryId tree q) : p = q := by
  have htext : toString p = toString q := (String.append_right_inj _).mp h
  have hdigits : Nat.toDigits 10 p = Nat.toDigits 10 q := by
    simpa using congrArg String.toList htext
  rw [← Nat.ofDigitChars_ten_toDigits (n := p), hdigits, Nat.ofDigitChars_ten_toDigits]

/-- Links are all that links to children add to a node. -/
theorem foldl_addLink (n : Node) (children : List String) :
    ∃ links, children.foldl (fun n c => n.addLink .child c) n = { n with links } := by
  induction children generalizing n with
  | nil => exact ⟨n.links, rfl⟩
  | cons c children ih =>
      obtain ⟨links, hlinks⟩ := ih (n.addLink .child c)
      exact ⟨links, hlinks⟩

section SummaryNode
variable (id text : String) (children : List String)

@[simp] theorem summaryNode_id : (summaryNode id text children).id = id := by
  obtain ⟨links, hlinks⟩ := foldl_addLink { id, text } children
  rw [summaryNode, hlinks]

@[simp] theorem summaryNode_text : (summaryNode id text children).text = text := by
  obtain ⟨links, hlinks⟩ := foldl_addLink { id, text } children
  rw [summaryNode, hlinks]

@[simp] theorem summaryNode_document : (summaryNode id text children).document = none := by
  obtain ⟨links, hlinks⟩ := foldl_addLink { id, text } children
  rw [summaryNode, hlinks]

end SummaryNode

/-- The forest `tree` is well formed, its nodes are stored, and stored summaries are in their places. -/
structure Tended (tree : String) (pending : List String) (g : Grove) : Prop where
  id_eq : g.1.id = tree
  wellFormed : g.1.WellFormed
  keyed : g.2.Keyed
  stored : ∀ id, g.1.contains id = true → g.2.contains id = true
  inPlace : ∀ k, g.2.contains (summaryId tree k) = true → g.1.nodes.get? k = some (summaryId tree k)
  pending_nodup : pending.Nodup
  pending_stored : ∀ id ∈ pending, g.2.contains id = true
  pending_new : ∀ id ∈ pending, g.1.contains id = false
  pending_plain : ∀ id ∈ pending, ∀ k, id ≠ summaryId tree k

namespace Tended

/-- With nothing left to insert, five facts remain. -/
theorem of_settled {g : Grove} (id_eq : g.1.id = tree) (wellFormed : g.1.WellFormed)
    (keyed : g.2.Keyed) (stored : ∀ id, g.1.contains id = true → g.2.contains id = true)
    (inPlace : ∀ k, g.2.contains (summaryId tree k) = true →
      g.1.nodes.get? k = some (summaryId tree k)) : Tended tree [] g :=
  ⟨id_eq, wellFormed, keyed, stored, inPlace, .nil, by simp, by simp, by simp⟩

/-- Children at any level are stored. -/
theorem children_stored (h : Tended tree pending (f, store))
    (hids : ∀ c ∈ ids, ∃ q, f.nodes.get? q = some c ∧ f.IsChild parent q) :
    ∀ c ∈ ids, store.contains c = true := by
  intro c hc
  obtain ⟨q, hq, _⟩ := hids c hc
  exact h.stored c (h.wellFormed.contains_iff.mpr ⟨q, hq⟩)

/-- The summary of a free position is new to the forest and to the store. -/
theorem summary_new (h : Tended tree pending (f, store)) (hp : f.nodes.get? p = none) :
    f.contains (summaryId tree p) = false ∧ store.contains (summaryId tree p) = false := by
  have hs : store.contains (summaryId tree p) = false := by
    rw [← Bool.not_eq_true]
    intro hc
    cases (h.inPlace p hc).symm.trans hp
  refine ⟨?_, hs⟩
  rw [← Bool.not_eq_true]
  intro hc
  cases (h.stored _ hc).symm.trans hs

/-- A stored node enters the forest, a summary at its own position. -/
theorem graft (h : Tended tree pending (f, store)) (hg : f.Graftable id parent adopted p)
    (hkeyed : store'.Keyed)
    (hstore : ∀ x, store'.contains x = true ↔ x = id ∨ store.contains x = true)
    (hid : id ∉ pending) (hplace : ∀ k, id = summaryId tree k → k = p) :
    Tended tree pending (f.graft id parent adopted p, store') := by
  refine ⟨h.id_eq, hg.wellFormed_graft h.wellFormed, hkeyed, fun x hx => ?_, fun k hk => ?_,
    h.pending_nodup, fun x hx => (hstore x).mpr (.inr (h.pending_stored x hx)), fun x hx => ?_,
    h.pending_plain⟩
  · exact (hstore x).mpr ((contains_graft.mp hx).imp_right (h.stored x))
  · rcases (hstore _).mp hk with hk | hk
    · cases hplace k hk.symm
      rw [hk]
      exact SortedMap.get?_insert_self ..
    · have hget := h.inPlace k hk
      have hne : k ≠ p := by
        rintro rfl
        cases hget.symm.trans hg.free
      exact SortedMap.get?_insert_eq_some.mpr (.inr ⟨hne, hget⟩)
  · have hne : x ≠ id := by
      rintro rfl
      exact hid hx
    rw [← Bool.not_eq_true, contains_graft, not_or]
    exact ⟨hne, by rw [h.pending_new x hx]; exact Bool.false_ne_true⟩

/-- A store that keeps its ids keeps the forest tended. -/
theorem of_store (h : Tended tree pending (f, store)) (hkeyed : store'.Keyed)
    (hstore : ∀ x, store'.contains x = true ↔ store.contains x = true) :
    Tended tree pending (f, store') :=
  ⟨h.id_eq, h.wellFormed, hkeyed, fun x hx => (hstore x).mpr (h.stored x hx),
    fun k hk => h.inPlace k ((hstore _).mp hk), h.pending_nodup,
    fun x hx => (hstore x).mpr (h.pending_stored x hx), h.pending_new, h.pending_plain⟩

theorem tail {pending : List String} {g : Grove} (h : Tended tree (id :: pending) g) :
    Tended tree pending g :=
  ⟨h.id_eq, h.wellFormed, h.keyed, h.stored, h.inPlace, (List.nodup_cons.mp h.pending_nodup).2,
    fun x hx => h.pending_stored x (by simp [hx]), fun x hx => h.pending_new x (by simp [hx]),
    fun x hx => h.pending_plain x (by simp [hx])⟩

end Tended

/-! ### Reading a level -/

/-- A level is read off in position order, each node once. -/
theorem childrenOf_of_present (w : f.Wired) (hpar : ∀ a, parent = some a → f.contains a = true) :
    ∃ l, f.childrenOf parent = .ok l ∧ (l.map (·.2)).Nodup ∧
      ∀ c, c ∈ l.map (·.2) ↔ ∃ q, f.nodes.get? q = some c ∧ f.IsChild parent q := by
  obtain ⟨l, hread, hl⟩ := siblings_of_present w hpar
  exact ⟨l, hread, InOrder.nodup w ⟨l, hl.toAscending, rfl⟩, fun c => hl.mem_ids⟩

theorem resolveAll_of_stored (k : store.Keyed) (h : ∀ id ∈ ids, store.contains id = true) :
    ∃ ns, store.resolveAll ids = .ok ns ∧ ns.map (·.id) = ids := by
  have hget (id : String) (hid : id ∈ ids) : ∃ n, store.nodes.get? id = some n :=
    NodeStore.contains_iff.mp (h id hid)
  refine ⟨ids.map fun id => (store.nodes.get? id).getD default, mapM_eq_ok fun id hid => ?_, ?_⟩
  · obtain ⟨n, hn⟩ := hget id hid
    rw [NodeStore.resolve_eq_ok.mpr hn, hn, Option.getD_some]
  · rw [List.map_map]
    refine (List.map_congr_left fun id hid => ?_).trans (List.map_id ids)
    obtain ⟨n, hn⟩ := hget id hid
    simp only [Function.comp_apply, hn, Option.getD_some, k id n hn, id_eq]

theorem textsOf_of_stored (k : store.Keyed) (h : ∀ id ∈ ids, store.contains id = true) :
    ∃ texts, textsOf store ids = .ok texts := by
  obtain ⟨ns, hns, _⟩ := resolveAll_of_stored k h
  rw [textsOf, hns, ok_bind]
  exact ⟨_, rfl⟩

end CorpusIndex.Forest
