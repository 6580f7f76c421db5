import CorpusIndex.Proofs.Forest.WellFormed
import CorpusIndex.Proofs.NodeStore

/-!
# Shrinking a forest

A node that is taken out hands its children to its parent, or leaves them as roots. `Without` says what
is left after some ids are gone, and composes, so that the whole cascade of a deletion is followed by
`removeNode_without` and induction.
-/
namespace CorpusIndex.Forest

variable {f g h : Forest} {id doc x y : String} {p q r d : Nat} {store : NodeStore}

/-! ### One node -/

/-- Roots that take in positions with the ids of a map. -/
theorem get?_foldl_root {nodes : SortedMap Nat String} {ps : List Nat} {roots : SortedMap Nat String} :
    (ps.foldl (fun roots q => match nodes.get? q with
        | some child => roots.insert q child
        | none => roots) roots).get? q = some y ↔
      (q ∈ ps ∧ nodes.get? q = some y) ∨
        (¬ (q ∈ ps ∧ ∃ z, nodes.get? q = some z) ∧ roots.get? q = some y) := by
  induction ps generalizing roots with
  | nil => simp
  | cons r ps ih =>
      rw [List.foldl_cons, ih, List.mem_cons]
      by_cases hq : q = r
      · subst hq
        cases hn : nodes.get? q with
        | none => simp
        | some z =>
            by_cases hin : q ∈ ps
            · simp [hin]
            · simp [hin]
      · cases nodes.get? r with
        | none => simp [hq]
        | some z => simp [hq, Ne.symm hq]

/-- What a node records as below it once its child at `p`, with the id `id`, is gone. -/
def handedUp (f : Forest) (id : String) (p : Nat) (parent : String) : SortedSet Nat :=
  SortedMap.union ((f.children.getD parent ∅).erase p) (f.children.getD id ∅)

theorem mem_handedUp : q ∈ f.handedUp id p x ↔ (q ≠ p ∧ f.Holds x q) ∨ f.Holds id q := by
  rw [handedUp, SortedSet.mem_union, SortedSet.mem_erase]
  rfl

section Remove
variable (w : f.WellFormed) (hp : f.nodes.get? p = some id)
include w hp

theorem nodes_removeNode : (f.removeNode id).1.nodes = f.nodes.erase p ∧
    (f.removeNode id).1.positions = f.positions.erase id := by
  unfold removeNode
  simp only [(w.inverse id p).mpr hp]
  split
  · split <;> exact ⟨rfl, rfl⟩
  · exact ⟨rfl, rfl⟩

theorem children_removeNode : (f.removeNode id).1.children.get? x =
    if f.parentOf? p = some x then
      if (f.handedUp id p x).isEmpty then none else some (f.handedUp id p x)
    else if x = id then none else f.children.get? x := by
  unfold removeNode
  simp only [(w.inverse id p).mpr hp]
  cases hpar : f.parentOf? p with
  | none =>
      by_cases hx : x = id
      · simp [hx]
      · simp [hx, Ne.symm hx]
  | some a =>
      have ha : a ≠ id := by
        rintro rfl
        exact w.not_holds_self hp (w.parentOf?_eq_some.mp hpar)
      have hbelow : SortedMap.union (((f.children.erase id).getD a ∅).erase p) (f.children.getD id ∅) =
          f.handedUp id p a := by
        rw [SortedMap.getD_eq, SortedMap.get?_erase_of_ne _ ha]
        rfl
      simp only [hbelow, Option.some.injEq]
      by_cases hx : x = a
      · subst hx
        split <;> simp_all
      · by_cases hid : x = id
        · subst hid
          split <;> simp [Ne.symm hx]
        · split <;> simp [Ne.symm hid, Ne.symm hx]

/-- The children of the node that goes are below its parent afterwards. -/
theorem holds_removeNode : (f.removeNode id).1.Holds x q ↔
    (x ≠ id ∧ q ≠ p ∧ f.Holds x q) ∨ (f.Holds x p ∧ f.Holds id q) := by
  rw [Holds, SortedMap.getD_eq, children_removeNode w hp]
  by_cases hx : f.Holds x p
  · have hid : x ≠ id := by
      rintro rfl
      exact w.not_holds_self hp hx
    rw [if_pos (w.parentOf?_eq_some.mpr hx), iff_true_intro hx, iff_true_intro hid, true_and, true_and,
      ← mem_handedUp]
    cases he : (f.handedUp id p x).isEmpty with
    | true => simp [SortedSet.isEmpty_iff.mp he q]
    | false => simp
  · rw [if_neg fun e => hx (w.parentOf?_eq_some.mp e), iff_false_intro hx, false_and, or_false]
    have hq : f.Holds x q → q ≠ p := by
      rintro h rfl
      exact hx h
    by_cases hid : x = id
    · simp [hid]
    · rw [if_neg hid, ← SortedMap.getD_eq]
      exact ⟨fun h => ⟨hid, hq h, h⟩, fun h => h.2.2⟩

theorem roots_removeNode : (f.removeNode id).1.roots.get? q = some y ↔
    (q ≠ p ∧ f.roots.get? q = some y) ∨
      (f.IsRoot p ∧ f.Holds id q ∧ f.nodes.get? q = some y) := by
  unfold removeNode
  simp only [(w.inverse id p).mpr hp]
  have hq : f.Holds id q → q ≠ p := by
    rintro h rfl
    exact w.not_holds_self hp h
  cases hpar : f.parentOf? p with
  | none =>
      have hroot : f.IsRoot p := w.isRoot_iff.mpr ⟨⟨id, hp⟩, w.parentOf?_eq_none.mp hpar⟩
      have hne : f.Holds id q → f.roots.get? q ≠ some y :=
        fun h e => ((w.roots_iff q y).mp e).2 id h
      have hocc : f.Holds id q → ∃ z, f.nodes.get? q = some z := w.occupied id q
      refine get?_foldl_root.trans ?_
      simp only [SortedSet.mem_elems, SortedMap.get?_erase_eq_some, iff_true_intro hroot, true_and]
      change (f.Holds id q ∧ _) ∨ (¬(f.Holds id q ∧ _) ∧ _) ↔ _
      by_cases hh : f.Holds id q
      · simp [hh, hq hh, hne hh, hocc hh]
      · simp [hh]
  | some a =>
      have hroot : ¬ f.IsRoot p := fun hr => (w.isRoot_iff.mp hr).2 a (w.parentOf?_eq_some.mp hpar)
      have hne : f.roots.get? q = some y → q ≠ p := by
        rintro e rfl
        exact hroot ⟨y, e⟩
      have hroots : f.roots.get? q = some y ↔ (q ≠ p ∧ f.roots.get? q = some y) ∨
          (f.IsRoot p ∧ f.Holds id q ∧ f.nodes.get? q = some y) := by tauto
      dsimp only
      split <;> exact hroots

theorem wired_removeNode : (f.removeNode id).1.Wired where
  inverse x q := by
    rw [(nodes_removeNode w hp).1, (nodes_removeNode w hp).2, SortedMap.get?_erase_eq_some,
      SortedMap.get?_erase_eq_some, w.inverse]
    refine and_congr_left fun hx => not_congr ⟨?_, ?_⟩
    · rintro rfl
      exact w.position_eq hx hp
    · rintro rfl
      exact Option.some.inj (hx.symm.trans hp)
  roots_iff q y := by
    rw [roots_removeNode w hp, (nodes_removeNode w hp).1, SortedMap.get?_erase_eq_some, w.roots_iff]
    simp only [holds_removeNode w hp, not_or, not_and]
    constructor
    · rintro (⟨hq, hy, hnone⟩ | ⟨hroot, hq, hy⟩)
      · exact ⟨⟨hq, hy⟩, fun a => ⟨fun _ _ => hnone a, fun _ => hnone id⟩⟩
      · have hne : q ≠ p := by
          rintro rfl
          exact w.not_holds_self hp hq
        refine ⟨⟨hne, hy⟩, fun a => ⟨fun ha _ hh => ha (w.single a id q hh hq), fun ha => ?_⟩⟩
        exact ((w.isRoot_iff.mp hroot).2 a ha).elim
    · rintro ⟨⟨hq, hy⟩, hnone⟩
      by_cases hid : f.Holds id q
      · refine .inr ⟨w.isRoot_iff.mpr ⟨⟨id, hp⟩, fun a ha => (hnone a).2 ha hid⟩, hid, hy⟩
      · refine .inl ⟨hq, hy, fun a ha => ?_⟩
        exact (hnone a).1 (fun e => hid (e ▸ ha)) hq ha
  parent_present a kids hk := by
    rw [children_removeNode w hp] at hk
    have hkeep (hne : a ≠ id) (ha : ∃ r, f.nodes.get? r = some a) :
        ∃ r, (f.removeNode id).1.nodes.get? r = some a := by
      obtain ⟨r, hr⟩ := ha
      refine ⟨r, ?_⟩
      rw [(nodes_removeNode w hp).1, SortedMap.get?_erase_eq_some]
      refine ⟨?_, hr⟩
      rintro rfl
      exact hne (Option.some.inj (hr.symm.trans hp))
    split at hk
    next hpar =>
      have ha := w.parentOf?_eq_some.mp hpar
      refine hkeep ?_ (w.holds_present ha)
      rintro rfl
      exact w.not_holds_self hp ha
    split at hk
    next => cases hk
    next hne => exact hkeep hne (w.parent_present a kids hk)
  occupied a q hq := by
    have hkeep (hne : q ≠ p) (hh : ∃ b, f.Holds b q) :
        ∃ y, (f.removeNode id).1.nodes.get? q = some y := by
      obtain ⟨b, hb⟩ := hh
      obtain ⟨y, hy⟩ := w.occupied b q hb
      rw [(nodes_removeNode w hp).1]
      exact ⟨y, SortedMap.get?_erase_eq_some.mpr ⟨hne, hy⟩⟩
    rcases (holds_removeNode w hp).mp hq with ⟨_, hne, hh⟩ | ⟨_, hh⟩
    · exact hkeep hne ⟨a, hh⟩
    · refine hkeep ?_ ⟨id, hh⟩
      rintro rfl
      exact w.not_holds_self hp hh
  single a b q ha hb := by
    rcases (holds_removeNode w hp).mp ha with ⟨hna, _, ha⟩ | ⟨ha, hq⟩ <;>
      rcases (holds_removeNode w hp).mp hb with ⟨hnb, _, hb⟩ | ⟨hb, hq'⟩
    · exact w.single a b q ha hb
    · exact (hna (w.single a id q ha hq')).elim
    · exact (hnb (w.single b id q hb hq)).elim
    · exact w.single a b p ha hb

theorem inhabited_removeNode {kids : SortedSet Nat}
    (hk : (f.removeNode id).1.children.get? x = some kids) : ∃ q, q ∈ kids := by
  rw [children_removeNode w hp] at hk
  split at hk
  next =>
    split at hk
    next => cases hk
    next he =>
      cases hk
      exact SortedSet.isEmpty_eq_false_iff.mp (Bool.not_eq_true _ ▸ he)
  split at hk
  next => cases hk
  next => exact w.inhabited x kids hk

/-- A root that stays is a root afterwards. -/
theorem isRoot_removeNode (hq : q ≠ p) (hr : f.IsRoot q) : (f.removeNode id).1.IsRoot q := by
  obtain ⟨y, hy⟩ := hr
  exact ⟨y, (roots_removeNode w hp).mpr (.inl ⟨hq, hy⟩)⟩

theorem edge_removeNode (hr : r ≠ p) (hr' : ∃ a, f.nodes.get? r = some a ∧
    (f.removeNode id).1.Holds a q) : (f.removeNode id).1.Edge r q := by
  obtain ⟨a, ha, hh⟩ := hr'
  refine ⟨a, ?_, hh⟩
  rw [(nodes_removeNode w hp).1]
  exact SortedMap.get?_erase_eq_some.mpr ⟨hr, ha⟩

/-- The nodes that stay keep a depth. Of the node that goes, what is kept is the depth of its parent,
for the children it hands up. -/
theorem depth_removeNode (hd : f.Depth q d) :
    (q ≠ p → ∃ e, (f.removeNode id).1.Depth q e) ∧
      (q = p → f.IsRoot p ∨ ∃ r e, f.Edge r p ∧ (f.removeNode id).1.Depth r e) := by
  induction hd with
  | @root q hr =>
      refine ⟨fun hq => ⟨0, .root (isRoot_removeNode w hp hq hr)⟩, ?_⟩
      rintro rfl
      exact .inl hr
  | @child r q d _ he ih =>
      have hne : q = p → r ≠ p := by
        rintro rfl rfl
        exact w.acyclic w.rooted he .refl
      refine ⟨fun hq => ?_, fun hq => ?_⟩
      · by_cases hr : r = p
        · subst hr
          obtain ⟨a, ha, hh⟩ := he
          cases hp.symm.trans ha
          rcases ih.2 rfl with hroot | ⟨s, e, ⟨b, hb, hbr⟩, hs⟩
          · obtain ⟨y, hy⟩ := w.occupied id q hh
            exact ⟨0, .root ⟨y, (roots_removeNode w hp).mpr (.inr ⟨hroot, hh, hy⟩)⟩⟩
          · have hsr : s ≠ r := by
              rintro rfl
              exact w.not_holds_self hb hbr
            exact ⟨e + 1, hs.child (edge_removeNode w hp hsr
              ⟨b, hb, (holds_removeNode w hp).mpr (.inr ⟨hbr, hh⟩)⟩)⟩
        · obtain ⟨e, hre⟩ := ih.1 hr
          obtain ⟨a, ha, hh⟩ := he
          have hid : a ≠ id := by
            rintro rfl
            exact hr (w.position_eq ha hp)
          exact ⟨e + 1, hre.child (edge_removeNode w hp hr
            ⟨a, ha, (holds_removeNode w hp).mpr (.inl ⟨hid, hq, hh⟩)⟩)⟩
      · obtain ⟨e, hre⟩ := ih.1 (hne hq)
        exact .inr ⟨r, e, hq ▸ he, hre⟩

/-- The parent reported as left without children is still a node. -/
theorem contains_emptied (he : (f.removeNode id).2 = some x) :
    x ≠ id ∧ f.contains x = true := by
  unfold removeNode at he
  simp only [(w.inverse id p).mpr hp] at he
  cases hpar : f.parentOf? p with
  | none =>
      rw [hpar] at he
      cases he
  | some a =>
      rw [hpar] at he
      dsimp only at he
      split at he
      · cases he
        have hx := w.parentOf?_eq_some.mp hpar
        refine ⟨?_, w.contains_iff.mpr (w.holds_present hx)⟩
        rintro rfl
        exact w.not_holds_self hp hx
      · cases he

end Remove

/-! ### Many nodes -/

/-- `g` is a well-formed forest on the nodes of `f` that are not among `ids`. -/
structure Without (f : Forest) (ids : List String) (g : Forest) : Prop where
  wellFormed : g.WellFormed
  nodes : ∀ q y, g.nodes.get? q = some y ↔ y ∉ ids ∧ f.nodes.get? q = some y
  id_eq : g.id = f.id

namespace Without
variable {ids js : List String}

theorem refl (w : f.WellFormed) : f.Without [] f := ⟨w, by simp, rfl⟩

theorem trans (hg : f.Without ids g) (hh : g.Without js h) : f.Without (ids ++ js) h := by
  refine ⟨hh.wellFormed, fun q y => ?_, hh.id_eq.trans hg.id_eq⟩
  rw [hh.nodes, hg.nodes, List.mem_append]
  tauto

theorem contains_iff (w : f.WellFormed) (hg : f.Without ids g) :
    g.contains x = true ↔ x ∉ ids ∧ f.contains x = true := by
  simp only [hg.wellFormed.contains_iff, w.contains_iff, hg.nodes, exists_and_left]

end Without

theorem WellFormed.removeNode_without (w : f.WellFormed) (id : String) :
    f.Without [id] (f.removeNode id).1 := by
  cases hpos : f.positions.get? id with
  | none =>
      have hfix : f.removeNode id = (f, none) := by simp only [removeNode, hpos]
      rw [hfix]
      refine ⟨w, fun q y => (and_iff_right_of_imp fun hy => ?_).symm, rfl⟩
      rw [List.mem_singleton]
      rintro rfl
      cases hpos.symm.trans ((w.inverse y q).mpr hy)
  | some p =>
      have hp := (w.inverse id p).mp hpos
      have hnodes (q : Nat) (y : String) : (f.removeNode id).1.nodes.get? q = some y ↔
          q ≠ p ∧ f.nodes.get? q = some y := by
        rw [(nodes_removeNode w hp).1, SortedMap.get?_erase_eq_some]
      refine ⟨⟨wired_removeNode w hp, (wired_removeNode w hp).rooted fun q y hq => ?_,
        fun _ _ => inhabited_removeNode w hp⟩, fun q y => ?_, ?_⟩
      · obtain ⟨hne, hq⟩ := (hnodes q y).mp hq
        obtain ⟨d, hd⟩ := w.rooted.depth hq
        exact (depth_removeNode w hp hd).1 hne
      · rw [hnodes, List.mem_singleton]
        refine and_congr_left fun hy => not_congr ⟨?_, ?_⟩
        · rintro rfl
          exact Option.some.inj (hy.symm.trans hp)
        · rintro rfl
          exact w.position_eq hy hp
      · unfold removeNode
        simp only [hpos]
        split
        · split <;> rfl
        · rfl

/-- The cascade upward takes out derived nodes only, each of them once, and never fails on a forest of
stored nodes. -/
theorem WellFormed.pruneUpward_without (w : f.WellFormed) (doomed : List String) (fuel : Nat)
    (emptied : Option String) (hres : ∀ y, f.contains y = true → ∃ n, store.nodes.get? y = some n)
    (hemp : ∀ a, emptied = some a → f.contains a = true) :
    ∃ g pruned, pruneUpward store doomed fuel f emptied = (g, .ok pruned) ∧ f.Without pruned g ∧
      (∀ y ∈ pruned, f.contains y = true ∧ y ∉ doomed ∧
        ∃ n, store.nodes.get? y = some n ∧ n.document = none) ∧ pruned.Nodup := by
  induction fuel generalizing f emptied with
  | zero => exact ⟨f, [], by rw [pruneUpward], .refl w, by simp, .nil⟩
  | succ fuel ih =>
      cases emptied with
      | none => exact ⟨f, [], rfl, .refl w, by simp, .nil⟩
      | some a =>
          obtain ⟨n, hn⟩ := hres a (hemp a rfl)
          by_cases hstop : (n.document.isSome || doomed.contains a) = true
          · refine ⟨f, [], ?_, .refl w, by simp, .nil⟩
            simp only [pruneUpward, NodeStore.resolve, hn, hstop, if_true]
          · have hg := w.removeNode_without a
            obtain ⟨p, hp⟩ := w.contains_iff.mp (hemp a rfl)
            obtain ⟨g, pruned, heq, hwithout, hpruned, hnd⟩ := ih hg.wellFormed
              (f.removeNode a).2
              (fun y hy => hres y ((hg.contains_iff w).mp hy).2)
              (fun b hb => by
                obtain ⟨hba, hb⟩ := contains_emptied w hp hb
                exact (hg.contains_iff w).mpr ⟨by simpa using hba, hb⟩)
            refine ⟨g, a :: pruned, ?_, hg.trans hwithout, fun y hy => ?_,
              List.nodup_cons.mpr ⟨fun ha => ?_, hnd⟩⟩
            · simp only [pruneUpward, NodeStore.resolve, hn, hstop]
              simp [heq, Functor.map, Except.map]
            · simp only [Bool.or_eq_true, List.contains_iff_mem, not_or] at hstop
              rcases List.mem_cons.mp hy with rfl | hy
              · exact ⟨hemp y rfl, hstop.2, n, hn, by simpa using hstop.1⟩
              · obtain ⟨hin, hrest⟩ := hpruned y hy
                exact ⟨((hg.contains_iff w).mp hin).2, hrest⟩
            · exact ((hg.contains_iff w).mp (hpruned a ha).1).1 (List.mem_singleton_self a)

theorem WellFormed.removeAll_without (w : f.WellFormed) (doomed ids : List String)
    (hres : ∀ y, f.contains y = true → ∃ n, store.nodes.get? y = some n) :
    ∃ g pruned, removeAll store doomed f ids = (g, .ok pruned) ∧ f.Without (ids ++ pruned) g ∧
      (∀ y ∈ pruned, f.contains y = true ∧ y ∉ doomed ∧
        ∃ n, store.nodes.get? y = some n ∧ n.document = none) ∧ pruned.Nodup := by
  induction ids generalizing f with
  | nil => exact ⟨f, [], rfl, .refl w, by simp, .nil⟩
  | cons id ids ih =>
      have hg := w.removeNode_without id
      have hemp (a : String) (ha : (f.removeNode id).2 = some a) :
          (f.removeNode id).1.contains a = true := by
        cases hpos : f.positions.get? id with
        | none => simp [removeNode, hpos] at ha
        | some p =>
            obtain ⟨hne, hin⟩ := contains_emptied w ((w.inverse id p).mp hpos) ha
            exact (hg.contains_iff w).mpr ⟨by simpa using hne, hin⟩
      obtain ⟨g, pruned, hprune, hwithout, hpruned, hnd⟩ := hg.wellFormed.pruneUpward_without
        doomed ((f.removeNode id).1.positions.size + 1) (f.removeNode id).2
        (fun y hy => hres y ((hg.contains_iff w).mp hy).2) hemp
      have hg' := hg.trans hwithout
      obtain ⟨h, more, hall, hrest, hmore, hnd'⟩ := ih hwithout.wellFormed
        fun y hy => hres y ((hg'.contains_iff w).mp hy).2
      refine ⟨h, pruned ++ more, ?_, ⟨hrest.wellFormed, fun q y => ?_, (hg'.trans hrest).id_eq⟩,
        fun y hy => ?_, List.nodup_append'.mpr ⟨hnd, hnd', fun y hy hy' => ?_⟩⟩
      · simp [removeAll, hprune, hall, Functor.map, Except.map]
      · rw [(hg'.trans hrest).nodes]
        simp only [List.mem_append, List.mem_cons, List.not_mem_nil, or_false]
        tauto
      · rcases List.mem_append.mp hy with hy | hy
        · obtain ⟨hin, hy⟩ := hpruned y hy
          exact ⟨((hg.contains_iff w).mp hin).2, hy⟩
        · obtain ⟨hin, hy⟩ := hmore y hy
          exact ⟨((hg'.contains_iff w).mp hin).2, hy⟩
      · exact ((hwithout.contains_iff hg.wellFormed).mp (hmore y hy').1).1 hy

/-! ### A document -/

theorem ownedBy_eq_ok (w : f.WellFormed) {ids : List String} (h : f.ownedBy doc store = .ok ids) :
    (∀ y, f.contains y = true → ∃ n, store.nodes.get? y = some n) ∧
      ∀ y, y ∈ ids ↔ f.contains y = true ∧
        ∃ n, store.nodes.get? y = some n ∧ n.document = some doc := by
  obtain ⟨ns, hns, h⟩ := bind_eq_ok.mp h
  cases pure_eq_ok.mp h
  obtain ⟨hall, hmem⟩ := NodeStore.mem_ownedIds doc hns
  exact ⟨fun y hy => hall y (w.mem_nodeIds.mpr hy), fun y => by rw [hmem, w.mem_nodeIds]⟩

theorem ownedBy_of_stored (doc : String) (w : f.WellFormed)
    (hres : ∀ y, f.contains y = true → ∃ n, store.nodes.get? y = some n) :
    ∃ ids, f.ownedBy doc store = .ok ids := by
  obtain ⟨ns, hns⟩ := NodeStore.resolvePairs_of_stored f.nodeIds
    fun y hy => hres y (w.mem_nodeIds.mp hy)
  rw [ownedBy, hns]
  exact ⟨_, rfl⟩

/-- A failed deletion leaves the forest as it is. A deletion that succeeds takes out the document's
nodes and derived nodes, and reports them all. -/
theorem WellFormed.deleteDocument_without (w : f.WellFormed) (doc : String) (store : NodeStore) :
    (∃ e, f.deleteDocument doc store = (f, .error e)) ∨
      ∃ g ids, f.deleteDocument doc store = (g, .ok ids) ∧ f.Without ids g ∧
        (∀ y ∈ ids, f.contains y = true ∧
          ∃ n, store.nodes.get? y = some n ∧ (n.document = some doc ∨ n.document = none)) ∧
        ∀ y n, f.contains y = true → store.nodes.get? y = some n → n.document = some doc → y ∈ ids := by
  unfold deleteDocument
  cases hown : f.ownedBy doc store with
  | error e => exact .inl ⟨e, rfl⟩
  | ok doomed =>
      obtain ⟨hres, hmem⟩ := ownedBy_eq_ok w hown
      obtain ⟨g, pruned, hall, hwithout, hpruned, _⟩ := w.removeAll_without
        doomed doomed hres
      dsimp only
      split
      · exact .inl ⟨_, rfl⟩
      · refine .inr ⟨g, doomed ++ pruned, ?_, hwithout, fun y hy => ?_, fun y n hy hn hdoc => ?_⟩
        · rw [hall]
          rfl
        · rcases List.mem_append.mp hy with hy | hy
          · obtain ⟨hin, n, hn, hdoc⟩ := (hmem y).mp hy
            exact ⟨hin, n, hn, .inl hdoc⟩
          · obtain ⟨hin, _, n, hn, hdoc⟩ := hpruned y hy
            exact ⟨hin, n, hn, .inr hdoc⟩
        · exact List.mem_append.mpr (.inl ((hmem y).mpr ⟨hy, n, hn, hdoc⟩))

/-- Where every id of the forest is stored, a deletion fails only if the forest has no node of the
document. -/
theorem WellFormed.deleteDocument_of_stored (w : f.WellFormed) (doc : String)
    (hres : ∀ y, f.contains y = true → ∃ n, store.nodes.get? y = some n) :
    (f.deleteDocument doc store = (f, .error (.absent (.document doc (.tree f.id)))) ∧
        ∀ y n, f.contains y = true → store.nodes.get? y = some n → n.document ≠ some doc) ∨
      ∃ g ids, f.deleteDocument doc store = (g, .ok ids) := by
  obtain ⟨doomed, hown⟩ := ownedBy_of_stored doc w hres
  obtain ⟨_, hmem⟩ := ownedBy_eq_ok w hown
  obtain ⟨g, pruned, hall, _⟩ := w.removeAll_without doomed doomed hres
  simp only [deleteDocument, hown]
  split
  next hnil =>
    refine .inl ⟨rfl, fun y n hy hn hdoc => ?_⟩
    have := (hmem y).mpr ⟨hy, n, hn, hdoc⟩
    simp [List.isEmpty_iff.mp hnil] at this
  next =>
    refine .inr ⟨g, doomed ++ pruned, ?_⟩
    rw [hall]
    rfl

end CorpusIndex.Forest
