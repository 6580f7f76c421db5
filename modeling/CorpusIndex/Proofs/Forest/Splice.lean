import CorpusIndex.Proofs.Forest.Removal

/-!
# What is above what, with nodes taken out

Taking a node out hands its children upward, so the nodes that stay keep their order: one is above
another afterwards exactly if it was before (`WellFormed.removeNode_spliced`). Since a forest is its nodes
with that order, what is left does not depend on the order in which nodes go (`Spliced.eq_of_occupied`).
-/
namespace CorpusIndex.Forest
open Relation

/-- There is a node at the position. -/
def Occupied (f : Forest) (p : Nat) : Prop := ∃ id, f.nodes.get? p = some id

variable {f g h : Forest} {a id : String} {p q r d : Nat}

theorem Depth.descend (hd : f.Depth p d) (hpq : TransGen f.Edge p q) : ∃ e, f.Depth q e ∧ d < e := by
  induction hpq with
  | single he => exact ⟨d + 1, hd.child he, Nat.lt_succ_self d⟩
  | tail _ he ih =>
      obtain ⟨e, hde, hlt⟩ := ih
      exact ⟨e + 1, hde.child he, Nat.lt_succ_of_lt hlt⟩

/-! ### The order decides the forest -/

namespace WellFormed
variable (w : f.WellFormed)
include w

theorem edge_occupied (h : f.Edge q p) : f.Occupied q ∧ f.Occupied p := by
  obtain ⟨a, ha, hh⟩ := h
  exact ⟨⟨a, ha⟩, w.occupied a p hh⟩

theorem above_irrefl (h : TransGen f.Edge p p) : False := by
  obtain ⟨q, hpq, hqp⟩ := TransGen.tail'_iff.mp h
  exact w.acyclic w.rooted hqp hpq

/-- A parent is what stands above a node with nothing in between. -/
theorem edge_iff_above : f.Edge q p ↔
    TransGen f.Edge q p ∧ ∀ r, TransGen f.Edge q r → ¬ TransGen f.Edge r p := by
  constructor
  · intro h
    refine ⟨.single h, fun r hqr hrp => ?_⟩
    obtain ⟨s, hrs, hsp⟩ := TransGen.tail'_iff.mp hrp
    cases w.edge_unique hsp h
    exact w.above_irrefl (hqr.trans_left hrs)
  · rintro ⟨h, hnone⟩
    obtain ⟨s, hqs, hsp⟩ := TransGen.tail'_iff.mp h
    rcases reflTransGen_iff_eq_or_transGen.mp hqs with rfl | hqs
    · exact hsp
    · exact (hnone s hqs (.single hsp)).elim

theorem holds_iff_edge : f.Holds a p ↔ ∃ q, f.nodes.get? q = some a ∧ f.Edge q p := by
  constructor
  · intro h
    obtain ⟨q, hq⟩ := w.holds_present h
    exact ⟨q, hq, a, hq, h⟩
  · rintro ⟨q, hq, b, hb, h⟩
    cases hq.symm.trans hb
    exact h

/-- A set of children is recorded exactly where there are some. -/
theorem get?_children_iff {below : SortedSet Nat} : f.children.get? a = some below ↔
    (∃ p, f.Holds a p) ∧ ∀ p, p ∈ below ↔ f.Holds a p := by
  constructor
  · intro h
    have hmem (p : Nat) : p ∈ below ↔ f.Holds a p := by
      rw [Holds, SortedMap.getD_eq, h]
      rfl
    obtain ⟨p, hp⟩ := w.inhabited a below h
    exact ⟨⟨p, (hmem p).mp hp⟩, hmem⟩
  · rintro ⟨⟨p, hp⟩, hmem⟩
    obtain ⟨found, hfound, _⟩ := holds_iff.mp hp
    rw [hfound, Option.some.injEq]
    refine SortedSet.ext fun q => ?_
    rw [hmem, Holds, SortedMap.getD_eq, hfound]
    rfl

/-- Forests with the same nodes in the same order are equal. -/
theorem eq_of_above (wg : g.WellFormed) (hid : f.id = g.id) (hsum : f.summary = g.summary)
    (hnodes : f.nodes = g.nodes) (habove : ∀ q p, TransGen f.Edge q p ↔ TransGen g.Edge q p) :
    f = g := by
  have hedge (q p : Nat) : f.Edge q p ↔ g.Edge q p := by
    simp only [w.edge_iff_above, wg.edge_iff_above, habove]
  have hholds (a : String) (p : Nat) : f.Holds a p ↔ g.Holds a p := by
    simp only [w.holds_iff_edge, wg.holds_iff_edge, hnodes, hedge]
  have hroots : f.roots = g.roots := by
    refine SortedMap.ext_get? fun p => Option.ext fun y => ?_
    simp only [w.roots_iff, wg.roots_iff, hnodes, hholds]
  have hpositions : f.positions = g.positions := by
    refine SortedMap.ext_get? fun y => Option.ext fun p => ?_
    simp only [w.inverse, wg.inverse, hnodes]
  have hchildren : f.children = g.children := by
    refine SortedMap.ext_get? fun y => Option.ext fun below => ?_
    simp only [w.get?_children_iff, wg.get?_children_iff, hholds]
  cases f
  cases g
  simp_all

end WellFormed

/-! ### Nodes that stay -/

/-- `g` has some of the nodes of `f`, and among these the same are above one another. -/
structure Spliced (f g : Forest) : Prop where
  wellFormed : g.WellFormed
  id_eq : g.id = f.id
  summary_eq : g.summary = f.summary
  nodes : ∀ p y, g.nodes.get? p = some y → f.nodes.get? p = some y
  above : ∀ q p, TransGen g.Edge q p ↔ TransGen f.Edge q p ∧ g.Occupied q ∧ g.Occupied p

namespace Spliced

theorem occupied (hg : f.Spliced g) (hp : g.Occupied p) : f.Occupied p :=
  hp.imp fun y hy => hg.nodes p y hy

theorem get?_nodes (hg : f.Spliced g) (hp : g.Occupied p) : g.nodes.get? p = f.nodes.get? p := by
  obtain ⟨y, hy⟩ := hp
  rw [hy, hg.nodes p y hy]

theorem refl (w : f.WellFormed) : f.Spliced f where
  wellFormed := w
  id_eq := rfl
  summary_eq := rfl
  nodes _ _ h := h
  above q p := by
    refine (and_iff_left_of_imp fun h => ?_).symm
    obtain ⟨_, hq, _⟩ := TransGen.head'_iff.mp h
    obtain ⟨_, _, hp⟩ := TransGen.tail'_iff.mp h
    exact ⟨(w.edge_occupied hq).1, (w.edge_occupied hp).2⟩

theorem trans (hg : f.Spliced g) (hh : g.Spliced h) : f.Spliced h where
  wellFormed := hh.wellFormed
  id_eq := hh.id_eq.trans hg.id_eq
  summary_eq := hh.summary_eq.trans hg.summary_eq
  nodes p y hy := hg.nodes p y (hh.nodes p y hy)
  above q p := by
    rw [hh.above, hg.above]
    have hin {p : Nat} : h.Occupied p → g.Occupied p := hh.occupied
    tauto

/-- What is left of a forest depends on the positions that are left only. -/
theorem eq_of_occupied (hg : f.Spliced g) (hh : f.Spliced h)
    (hocc : ∀ p, g.Occupied p ↔ h.Occupied p) : g = h := by
  refine hg.wellFormed.eq_of_above hh.wellFormed (hg.id_eq.trans hh.id_eq.symm)
    (hg.summary_eq.trans hh.summary_eq.symm) (SortedMap.ext_get? fun p => ?_) fun q p => ?_
  · by_cases hp : g.Occupied p
    · rw [hg.get?_nodes hp, hh.get?_nodes ((hocc p).mp hp)]
    · have hnone {k : Forest} (hk : ¬ k.Occupied p) : k.nodes.get? p = none :=
        Option.eq_none_iff_forall_ne_some.mpr fun y hy => hk ⟨y, hy⟩
      rw [hnone hp, hnone fun hk => hp ((hocc p).mpr hk)]
  · rw [hg.above, hh.above, hocc, hocc]

end Spliced

/-! ### One node goes -/

section Remove
variable (w : f.WellFormed) (hp : f.nodes.get? p = some id)
include w hp

theorem occupied_removeNode : (f.removeNode id).1.Occupied q ↔ q ≠ p ∧ f.Occupied q := by
  simp only [Occupied, (nodes_removeNode w hp).1, SortedMap.get?_erase_eq_some, exists_and_left]

/-- A link of a node that stays leads where it led, or, over the node that goes, one level deeper. -/
theorem edge_removeNode_iff : (f.removeNode id).1.Edge r q ↔
    r ≠ p ∧ q ≠ p ∧ (f.Edge r q ∨ (f.Edge r p ∧ f.Edge p q)) := by
  simp only [Edge, (nodes_removeNode w hp).1, SortedMap.get?_erase_eq_some, holds_removeNode w hp]
  constructor
  · rintro ⟨a, ⟨hr, ha⟩, ⟨_, hq, hh⟩ | ⟨hap, hpq⟩⟩
    · exact ⟨hr, hq, .inl ⟨a, ha, hh⟩⟩
    · refine ⟨hr, ?_, .inr ⟨⟨a, ha, hap⟩, id, hp, hpq⟩⟩
      rintro rfl
      exact w.not_holds_self hp hpq
  · rintro ⟨hr, hq, ⟨a, ha, hh⟩ | ⟨⟨a, ha, hap⟩, b, hb, hpq⟩⟩
    · refine ⟨a, ⟨hr, ha⟩, .inl ⟨?_, hq, hh⟩⟩
      rintro rfl
      exact hr (w.position_eq ha hp)
    · cases hp.symm.trans hb
      exact ⟨a, ⟨hr, ha⟩, .inr ⟨hap, hpq⟩⟩

/-- Going down to a node that stays, the walk avoids the node that goes; going down to that node itself,
it gets as far as its parent. -/
theorem above_removeNode_aux (hr : r ≠ p) (h : TransGen f.Edge r q) :
    (q ≠ p → TransGen (f.removeNode id).1.Edge r q) ∧
      (q = p → ∃ s, f.Edge s p ∧ ReflTransGen (f.removeNode id).1.Edge r s) := by
  have hne {s : Nat} (hs : f.Edge s p) : s ≠ p := by
    rintro rfl
    exact w.above_irrefl (.single hs)
  induction h with
  | single he =>
      refine ⟨fun hq => .single ((edge_removeNode_iff w hp).mpr ⟨hr, hq, .inl he⟩), ?_⟩
      rintro rfl
      exact ⟨r, he, .refl⟩
  | @tail m q _ he ih =>
      by_cases hm : m = p
      · subst hm
        obtain ⟨s, hs, hrs⟩ := ih.2 rfl
        have hq : q ≠ m := by
          rintro rfl
          exact hne he rfl
        refine ⟨fun _ => .tail' hrs ?_, fun e => (hq e).elim⟩
        exact (edge_removeNode_iff w hp).mpr ⟨hne hs, hq, .inr ⟨hs, he⟩⟩
      · refine ⟨fun hq => (ih.1 hm).tail ?_, ?_⟩
        · exact (edge_removeNode_iff w hp).mpr ⟨hm, hq, .inl he⟩
        · rintro rfl
          exact ⟨m, he, (ih.1 hm).to_reflTransGen⟩

theorem above_removeNode : TransGen (f.removeNode id).1.Edge r q ↔
    TransGen f.Edge r q ∧ r ≠ p ∧ q ≠ p := by
  constructor
  · intro h
    induction h with
    | single he =>
        obtain ⟨hr, hq, he | ⟨hrp, hpq⟩⟩ := (edge_removeNode_iff w hp).mp he
        · exact ⟨.single he, hr, hq⟩
        · exact ⟨.tail (.single hrp) hpq, hr, hq⟩
    | tail _ he ih =>
        obtain ⟨_, hq, he | ⟨hmp, hpq⟩⟩ := (edge_removeNode_iff w hp).mp he
        · exact ⟨ih.1.tail he, ih.2.1, hq⟩
        · exact ⟨(ih.1.tail hmp).tail hpq, ih.2.1, hq⟩
  · rintro ⟨h, hr, hq⟩
    exact (above_removeNode_aux w hp hr h).1 hq

theorem summary_removeNode : (f.removeNode id).1.summary = f.summary := by
  unfold removeNode
  simp only [(w.inverse id p).mpr hp]
  split
  · split <;> rfl
  · rfl

theorem WellFormed.removeNode_spliced : f.Spliced (f.removeNode id).1 where
  wellFormed := (w.removeNode_without id).wellFormed
  id_eq := (w.removeNode_without id).id_eq
  summary_eq := summary_removeNode w hp
  nodes q y hy := (((w.removeNode_without id).nodes q y).mp hy).2
  above r q := by
    rw [above_removeNode w hp, occupied_removeNode w hp, occupied_removeNode w hp]
    constructor
    · rintro ⟨h, hr, hq⟩
      obtain ⟨hr', hq'⟩ := ((Spliced.refl w).above r q).mp h |>.2
      exact ⟨h, ⟨hr, hr'⟩, hq, hq'⟩
    · rintro ⟨h, ⟨hr, _⟩, hq, _⟩
      exact ⟨h, hr, hq⟩

/-- A parent is reported exactly if it is left without children. -/
theorem emptied_removeNode : (f.removeNode id).2 = some a ↔
    f.Holds a p ∧ ∀ q, ¬ (f.removeNode id).1.Holds a q := by
  have hleft (hx : f.Holds a p) : (f.handedUp id p a).isEmpty = true ↔
      ∀ q, ¬ (f.removeNode id).1.Holds a q := by
    have hid : a ≠ id := by
      rintro rfl
      exact w.not_holds_self hp hx
    simp [SortedSet.isEmpty_iff, mem_handedUp, holds_removeNode w hp, hid, hx]
  have hreport : (f.removeNode id).2 = some a ↔ f.Holds a p ∧ (f.handedUp id p a).isEmpty = true := by
    unfold removeNode
    simp only [(w.inverse id p).mpr hp]
    cases hpar : f.parentOf? p with
    | none => simp [w.parentOf?_eq_none.mp hpar a]
    | some b =>
        have hb := w.parentOf?_eq_some.mp hpar
        have hbid : b ≠ id := by
          rintro rfl
          exact w.not_holds_self hp hb
        have hbelow : SortedMap.union (((f.children.erase id).getD b ∅).erase p)
            (f.children.getD id ∅) = f.handedUp id p b := by
          rw [SortedMap.getD_eq, SortedMap.get?_erase_of_ne _ hbid]
          rfl
        simp only [hbelow]
        by_cases hab : b = a
        · subst hab
          split <;> simp_all
        · have ha : ¬ f.Holds a p := fun ha => hab (w.single b a p hb ha)
          split <;> simp [hab, ha]
  rw [hreport]
  exact and_congr_right hleft

end Remove

end CorpusIndex.Forest
