import CorpusIndex.Proofs.Forest.Splice

/-!
# What a deletion takes out of a forest

The cascade of a deletion runs node by node, but what it leaves can be said without an order: `Prunes`
asks that exactly the nodes of the documents go and the derived nodes all of whose descendants go. There is
one such forest only (`Prunes.unique`), and deleting more documents asks for it again (`Prunes.trans`),
so deletions commute. `Pruning` is the invariant of the cascade.
-/
namespace CorpusIndex.Forest
open Relation

/-- The node at `p` comes from one of the documents. -/
def OwnedAt (f : Forest) (store : NodeStore) (docs : List String) (p : Nat) : Prop :=
  ∃ y n doc, f.nodes.get? p = some y ∧ store.nodes.get? y = some n ∧ n.document = some doc ∧ doc ∈ docs

/-- The node at `p` is stored and comes from no document. -/
def DerivedAt (f : Forest) (store : NodeStore) (p : Nat) : Prop :=
  ∃ y n, f.nodes.get? p = some y ∧ store.nodes.get? y = some n ∧ n.document = none

/-- The node at `p` has children, and none of its descendants is left in `g`. -/
def Hollow (f g : Forest) (p : Nat) : Prop :=
  (∃ q, f.Edge p q) ∧ ∀ q, TransGen f.Edge p q → ¬ g.Occupied q

/-- `g` is left of `f` after the nodes of documents and the derived nodes above these alone are gone. -/
structure Prunes (f : Forest) (store : NodeStore) (docs : List String) (g : Forest) : Prop
    extends Spliced f g where
  gone_iff : ∀ p, f.Occupied p →
    (¬ g.Occupied p ↔ f.OwnedAt store docs p ∨ (f.DerivedAt store p ∧ f.Hollow g p))

variable {f g h : Forest} {store s t : NodeStore} {docs docs' doomed ids : List String}
  {emptied : Option String} {doc id : String} {p q : Nat}

theorem Hollow.mono (hp : f.Hollow g p) (hh : g.Spliced h) : f.Hollow h p :=
  ⟨hp.1, fun q hq hq' => hp.2 q hq (hh.occupied hq')⟩

/-! ### One such forest -/

namespace Prunes

/-- Descendants decide about a derived node, so the argument goes from the deepest nodes upward. -/
theorem occupied_iff (w : f.WellFormed) (hg : f.Prunes store docs g) (hh : f.Prunes store docs' h)
    (hdocs : ∀ d, d ∈ docs ↔ d ∈ docs') (p : Nat) : g.Occupied p ↔ h.Occupied p := by
  have hlevel (k : Nat) : ∀ p d, f.Depth p d → f.size - d ≤ k → (g.Occupied p ↔ h.Occupied p) := by
    induction k with
    | zero =>
        intro p d hd hk
        have := w.depth_lt_size hd
        omega
    | succ k ih =>
        intro p d hd hk
        have hhollow : f.Hollow g p ↔ f.Hollow h p := by
          refine and_congr_right fun _ => forall₂_congr fun q hq => ?_
          obtain ⟨e, he, hlt⟩ := hd.descend hq
          exact not_congr (ih q e he (by have := w.depth_lt_size he; omega))
        have howned : f.OwnedAt store docs p ↔ f.OwnedAt store docs' p := by
          simp only [OwnedAt, hdocs]
        have hp := w.depth_occupied hd
        rw [← not_iff_not, hg.gone_iff p hp, hh.gone_iff p hp, hhollow, howned]
  by_cases hp : f.Occupied p
  · obtain ⟨y, hy⟩ := hp
    obtain ⟨d, hd⟩ := w.rooted.depth hy
    exact hlevel _ p d hd (Nat.le_refl _)
  · exact ⟨fun h => (hp (hg.occupied h)).elim, fun h => (hp (hh.occupied h)).elim⟩

theorem unique (w : f.WellFormed) (hg : f.Prunes store docs g) (hh : f.Prunes store docs' h)
    (hdocs : ∀ d, d ∈ docs ↔ d ∈ docs') : g = h :=
  hg.toSpliced.eq_of_occupied hh.toSpliced (hg.occupied_iff w hh hdocs)

/-- Under a derived node that stays, nothing is left of `f` exactly if nothing is left of `g`: such a node
has kept a descendant. -/
theorem hollow_iff (hg : f.Prunes store docs g) (hh : g.Spliced h) (hp : g.Occupied p)
    (hd : f.DerivedAt store p) : g.Hollow h p ↔ f.Hollow h p := by
  have hfirst {k : Forest} {q : Nat} (hq : TransGen k.Edge p q) : ∃ r, k.Edge p r := by
    obtain ⟨r, hr, _⟩ := TransGen.head'_iff.mp hq
    exact ⟨r, hr⟩
  constructor
  · rintro ⟨⟨q, hq⟩, hall⟩
    refine ⟨hfirst ((hg.above p q).mp (.single hq)).1, fun r hr hr' => hall r ?_ hr'⟩
    exact (hg.above p r).mpr ⟨hr, hp, hh.occupied hr'⟩
  · rintro ⟨hchild, hall⟩
    refine ⟨?_, fun q hq => hall q ((hg.above p q).mp hq).1⟩
    by_contra hnone
    refine (hg.gone_iff p (hg.occupied hp)).mpr (.inr ⟨hd, hchild, fun q hq hq' => ?_⟩) hp
    exact hnone (hfirst ((hg.above p q).mpr ⟨hq, hp, hq'⟩))

/-- Pruning for some documents and then for others prunes for all of them. -/
theorem trans (hg : f.Prunes store docs g) (hh : g.Prunes store docs' h) :
    f.Prunes store (docs ++ docs') h where
  toSpliced := hg.toSpliced.trans hh.toSpliced
  gone_iff p hp := by
    have howned : f.OwnedAt store (docs ++ docs') p ↔
        f.OwnedAt store docs p ∨ f.OwnedAt store docs' p := by
      simp only [OwnedAt, List.mem_append]
      grind
    rw [howned]
    by_cases hp' : g.Occupied p
    · have hsame : (g.OwnedAt store docs' p ↔ f.OwnedAt store docs' p) ∧
          (g.DerivedAt store p ↔ f.DerivedAt store p) := by
        simp only [OwnedAt, DerivedAt, hg.get?_nodes hp', true_and]
      have hother : ¬ f.OwnedAt store docs p := fun ho => (hg.gone_iff p hp).mpr (.inl ho) hp'
      rw [hh.gone_iff p hp', hsame.1, hsame.2, or_iff_right hother,
        and_congr_right (hg.hollow_iff hh.toSpliced hp')]
    · refine iff_of_true (fun h => hp' (hh.occupied h)) ?_
      rcases (hg.gone_iff p hp).mp hp' with ho | ⟨hd, hhollow⟩
      · exact .inl (.inl ho)
      · exact .inr ⟨hd, hhollow.mono hh.toSpliced⟩

/-- Only the lookups of the forest's own nodes matter. -/
theorem congr (hg : f.Prunes s docs g)
    (hst : ∀ p y, f.nodes.get? p = some y → s.nodes.get? y = t.nodes.get? y) : f.Prunes t docs g where
  toSpliced := hg.toSpliced
  gone_iff p hp := by
    have howned : f.OwnedAt t docs p ↔ f.OwnedAt s docs p := by
      simp only [OwnedAt]
      refine exists_congr fun y => ⟨?_, ?_⟩
      · rintro ⟨n, d, hy, hn, hrest⟩
        exact ⟨n, d, hy, (hst p y hy).trans hn, hrest⟩
      · rintro ⟨n, d, hy, hn, hrest⟩
        exact ⟨n, d, hy, (hst p y hy).symm.trans hn, hrest⟩
    have hderived : f.DerivedAt t p ↔ f.DerivedAt s p := by
      simp only [DerivedAt]
      refine exists_congr fun y => ⟨?_, ?_⟩
      · rintro ⟨n, hy, hn, hrest⟩
        exact ⟨n, hy, (hst p y hy).trans hn, hrest⟩
      · rintro ⟨n, hy, hn, hrest⟩
        exact ⟨n, hy, (hst p y hy).symm.trans hn, hrest⟩
    rw [hg.gone_iff p hp, howned, hderived]

end Prunes

/-! ### The cascade -/

/-- The state of a cascade over `f` that has come to `g`: what is gone had to go, and every derived node
still has a child if it had one, but for the node that was emptied last. -/
structure Pruning (f : Forest) (store : NodeStore) (doomed : List String) (emptied : Option String)
    (g : Forest) : Prop extends Spliced f g where
  gone : ∀ p y, f.nodes.get? p = some y → ¬ g.Occupied p →
    y ∈ doomed ∨ (f.DerivedAt store p ∧ f.Hollow g p)
  kept : ∀ p y, g.nodes.get? p = some y → f.DerivedAt store p → y ∉ doomed → (∃ q, f.Edge p q) →
    (∃ q, g.Edge p q) ∨ emptied = some y
  hollow : ∀ y, emptied = some y → ∃ p, g.nodes.get? p = some y ∧ f.Hollow g p

namespace Pruning

theorem start (w : f.WellFormed) : f.Pruning store doomed none f where
  toSpliced := .refl w
  gone p y hy hp := (hp ⟨y, hy⟩).elim
  kept _ _ _ _ _ h := .inl h
  hollow _ h := by cases h

/-- Taking out a node that has to go keeps the invariant, with the parent it reports. -/
theorem removeNode (hg : f.Pruning store doomed emptied g) (hp : g.nodes.get? p = some id)
    (hout : id ∈ doomed ∨ (f.DerivedAt store p ∧ f.Hollow g p))
    (hlast : ∀ y, emptied = some y → y = id) :
    f.Pruning store doomed (g.removeNode id).2 (g.removeNode id).1 := by
  have w := hg.wellFormed
  have hsplice := w.removeNode_spliced hp
  have hnodes (q : Nat) (y : String) :
      (g.removeNode id).1.nodes.get? q = some y ↔ q ≠ p ∧ g.nodes.get? q = some y := by
    rw [(nodes_removeNode w hp).1, SortedMap.get?_erase_eq_some]
  refine ⟨hg.toSpliced.trans hsplice, fun q y hq hgone => ?_, fun q y hq hd hy hchild => ?_,
    fun y hy => ?_⟩
  · by_cases hqp : q = p
    · subst hqp
      cases hq.symm.trans (hg.nodes q id hp)
      exact hout.imp_right fun ⟨hd, hh⟩ => ⟨hd, hh.mono hsplice⟩
    · have hgone' : ¬ g.Occupied q := fun hq' => hgone ((occupied_removeNode w hp).mpr ⟨hqp, hq'⟩)
      exact (hg.gone q y hq hgone').imp_right fun ⟨hd, hh⟩ => ⟨hd, hh.mono hsplice⟩
  · obtain ⟨hqp, hq⟩ := (hnodes q y).mp hq
    by_cases hleft : ∃ r, (g.removeNode id).1.Edge q r
    · exact .inl hleft
    · refine .inr ((emptied_removeNode w hp).mpr ⟨?_, fun r hr => hleft ⟨r, y, ?_, hr⟩⟩)
      · rcases hg.kept q y hq hd hy hchild with ⟨r, hr⟩ | hlast'
        · have hrp : r = p := by
            by_contra hrp
            exact hleft ⟨r, (edge_removeNode_iff w hp).mpr ⟨hqp, hrp, .inl hr⟩⟩
          obtain ⟨z, hz, hh⟩ := hr
          cases hq.symm.trans hz
          exact hrp ▸ hh
        · cases hlast y hlast'
          exact (hqp (w.position_eq hq hp)).elim
      · exact (hnodes q y).mpr ⟨hqp, hq⟩
  · obtain ⟨hhold, hnone⟩ := (emptied_removeNode w hp).mp hy
    obtain ⟨q, hq⟩ := w.holds_present hhold
    have hqp : q ≠ p := by
      rintro rfl
      exact w.not_holds_self hq hhold
    have hq' := (hnodes q y).mpr ⟨hqp, hq⟩
    obtain ⟨r, hr, _⟩ := TransGen.head'_iff.mp ((hg.above q p).mp (.single ⟨y, hq, hhold⟩)).1
    refine ⟨q, hq', ⟨r, hr⟩, fun s hs hs' => ?_⟩
    obtain ⟨r, ⟨z, hz, hh⟩, _⟩ :=
      TransGen.head'_iff.mp (((hg.toSpliced.trans hsplice).above q s).mpr ⟨hs, ⟨y, hq'⟩, hs'⟩)
    cases hq'.symm.trans hz
    exact hnone r hh

/-- A node that does not have to go ends the walk upward. -/
theorem stop (hg : f.Pruning store doomed emptied g)
    (hkeep : ∀ p y, emptied = some y → g.nodes.get? p = some y → f.DerivedAt store p → y ∈ doomed) :
    f.Pruning store doomed none g where
  toSpliced := hg.toSpliced
  gone := hg.gone
  kept p y hp hd hy hchild := by
    refine (hg.kept p y hp hd hy hchild).imp_right fun hlast => ?_
    exact (hy (hkeep p y hlast hp hd)).elim
  hollow _ h := by cases h

/-- The walk upward has fuel for all nodes that are left, so it ends where nothing has to go. -/
theorem pruneUpward (hg : f.Pruning store doomed emptied g) {fuel : Nat}
    (hfuel : g.positions.size < fuel)
    (hres : ∀ p y, f.nodes.get? p = some y → ∃ n, store.nodes.get? y = some n) :
    ∃ h pruned, Forest.pruneUpward store doomed fuel g emptied = (h, .ok pruned) ∧
      f.Pruning store doomed none h := by
  induction fuel generalizing g emptied with
  | zero => omega
  | succ fuel ih =>
      cases hemp : emptied with
      | none => exact ⟨g, [], rfl, hemp ▸ hg⟩
      | some a =>
          obtain ⟨p, hp, hhollow⟩ := hg.hollow a hemp
          obtain ⟨n, hn⟩ := hres p a (hg.nodes p a hp)
          by_cases hstop : (n.document.isSome || doomed.contains a) = true
          · refine ⟨g, [], ?_, hg.stop fun q y hy hq hd => ?_⟩
            · simp only [Forest.pruneUpward, NodeStore.resolve, hn, hstop, if_true]
            · cases hemp.symm.trans hy
              obtain ⟨z, m, hz, hm, hnone⟩ := hd
              cases (hg.nodes q a hq).symm.trans hz
              cases hn.symm.trans hm
              simpa [hnone] using hstop
          · have hstop' : n.document = none ∧ a ∉ doomed := by simpa using hstop
            have hnext := hg.removeNode hp
              (.inr ⟨⟨a, n, hg.nodes p a hp, hn, hstop'.1⟩, hhollow⟩)
              fun y hy => Option.some.inj (hy.symm.trans hemp)
            have hless : (g.removeNode a).1.positions.size < g.positions.size := by
              rw [(nodes_removeNode hg.wellFormed hp).2]
              exact SortedMap.size_erase_lt ((hg.wellFormed.inverse a p).mpr hp)
            obtain ⟨h, pruned, heq, hh⟩ := ih hnext (by omega)
            refine ⟨h, a :: pruned, ?_, hh⟩
            simp only [Forest.pruneUpward, NodeStore.resolve, hn, hstop]
            simp [heq, Functor.map, Except.map]

theorem removeAll (hg : f.Pruning store doomed none g) (hids : ∀ id ∈ ids, id ∈ doomed)
    (hres : ∀ p y, f.nodes.get? p = some y → ∃ n, store.nodes.get? y = some n) :
    ∃ h pruned, Forest.removeAll store doomed g ids = (h, .ok pruned) ∧
      f.Pruning store doomed none h := by
  induction ids generalizing g with
  | nil => exact ⟨g, [], rfl, hg⟩
  | cons id ids ih =>
      have hstep : f.Pruning store doomed (g.removeNode id).2 (g.removeNode id).1 := by
        cases hpos : g.positions.get? id with
        | none =>
            have hfix : g.removeNode id = (g, none) := by simp only [Forest.removeNode, hpos]
            rw [hfix]
            exact hg
        | some p =>
            exact hg.removeNode ((hg.wellFormed.inverse id p).mp hpos) (.inl (hids id (by simp)))
              fun y hy => by cases hy
      obtain ⟨k, pruned, hprune, hk⟩ := hstep.pruneUpward (Nat.lt_succ_self _) hres
      obtain ⟨h, more, hall, hh⟩ := ih hk fun j hj => hids j (by simp [hj])
      refine ⟨h, pruned ++ more, ?_, hh⟩
      simp [Forest.removeAll, hprune, hall, Functor.map, Except.map]

/-- A cascade that is over, with all of the documents' nodes gone. -/
theorem prunes (hg : f.Pruning store doomed none g)
    (hdoomed : ∀ p y, f.nodes.get? p = some y → (y ∈ doomed ↔ f.OwnedAt store docs p))
    (hgone : ∀ p y, g.nodes.get? p = some y → y ∉ doomed) : f.Prunes store docs g where
  toSpliced := hg.toSpliced
  gone_iff p hp := by
    obtain ⟨y, hy⟩ := hp
    rw [← hdoomed p y hy]
    refine ⟨hg.gone p y hy, ?_⟩
    rintro (hin | ⟨hd, hchild, hall⟩) ⟨z, hz⟩
    · cases hy.symm.trans (hg.nodes p z hz)
      exact hgone p y hz hin
    · cases hy.symm.trans (hg.nodes p z hz)
      rcases hg.kept p y hz hd (hgone p y hz) hchild with ⟨q, hq⟩ | hlast
      · exact hall q ((hg.above p q).mp (.single hq)).1 (hg.wellFormed.edge_occupied hq).2
      · cases hlast

end Pruning

/-! ### Deleting documents -/

theorem WellFormed.deleteDocument_prunes (w : f.WellFormed) (doc : String)
    (hres : ∀ p y, f.nodes.get? p = some y → ∃ n, store.nodes.get? y = some n) :
    f.Prunes store [doc] (f.deleteDocument doc store).1 := by
  have hstored (y : String) (hy : f.contains y = true) : ∃ n, store.nodes.get? y = some n := by
    obtain ⟨p, hp⟩ := w.contains_iff.mp hy
    exact hres p y hp
  obtain ⟨doomed, hown⟩ := ownedBy_of_stored doc w hstored
  obtain ⟨_, hmem⟩ := ownedBy_eq_ok w hown
  have hdoomed (p : Nat) (y : String) (hy : f.nodes.get? p = some y) :
      y ∈ doomed ↔ f.OwnedAt store [doc] p := by
    rw [hmem, OwnedAt, w.contains_iff]
    constructor
    · rintro ⟨_, n, hn, hdoc⟩
      exact ⟨y, n, doc, hy, hn, hdoc, by simp⟩
    · rintro ⟨z, n, d, hz, hn, hdoc, hd⟩
      cases hy.symm.trans hz
      cases List.mem_singleton.mp hd
      exact ⟨⟨p, hy⟩, n, hn, hdoc⟩
  simp only [deleteDocument, hown]
  split
  next hnil =>
    refine (Pruning.start w : f.Pruning store doomed none f).prunes hdoomed fun p y _ => ?_
    simp [List.isEmpty_iff.mp hnil]
  next =>
    obtain ⟨g, pruned, hall, hg⟩ := (Pruning.start w).removeAll (fun id hid => hid) hres
    obtain ⟨g', pruned', hall', hwithout, _⟩ := w.removeAll_without doomed doomed hstored
    cases hall.symm.trans hall'
    rw [hall]
    refine hg.prunes hdoomed fun p y hy => ?_
    have hout := ((hwithout.nodes p y).mp hy).1
    simp only [List.mem_append, not_or] at hout
    exact hout.1

/-- Two documents leave a forest in either order with the same result. -/
theorem WellFormed.deleteDocument_comm (w : f.WellFormed) (doc doc' : String)
    (hres : ∀ p y, f.nodes.get? p = some y → ∃ n, store.nodes.get? y = some n) :
    ((f.deleteDocument doc store).1.deleteDocument doc' store).1 =
      ((f.deleteDocument doc' store).1.deleteDocument doc store).1 := by
  have hboth (d d' : String) :
      f.Prunes store [d, d'] ((f.deleteDocument d store).1.deleteDocument d' store).1 := by
    have hd := w.deleteDocument_prunes d hres
    exact hd.trans
      (hd.wellFormed.deleteDocument_prunes d' fun p y hy => hres p y (hd.nodes p y hy))
  refine (hboth doc doc').unique w (hboth doc' doc) fun d => ?_
  simp only [List.mem_cons, List.not_mem_nil, or_false]
  exact or_comm

/-- Stores that agree on a forest's nodes leave the same of it. -/
theorem WellFormed.deleteDocument_congr (w : f.WellFormed) (doc : String)
    (hres : ∀ p y, f.nodes.get? p = some y → ∃ n, s.nodes.get? y = some n)
    (hst : ∀ p y, f.nodes.get? p = some y → s.nodes.get? y = t.nodes.get? y) :
    (f.deleteDocument doc s).1 = (f.deleteDocument doc t).1 := by
  refine ((w.deleteDocument_prunes doc hres).congr hst).unique w
    (w.deleteDocument_prunes doc fun p y hy => ?_) fun d => Iff.rfl
  rw [← hst p y hy]
  exact hres p y hy

end CorpusIndex.Forest
