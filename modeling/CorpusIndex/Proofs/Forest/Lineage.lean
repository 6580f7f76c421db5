import CorpusIndex.Proofs.Forest.Siblings
import CorpusIndex.Proofs.Forest.Splice
import CorpusIndex.Proofs.Forest.Validation

/-!
# Lines of descent, by ids

A node heads itself and what lies below it (`Heads`, which compares nodes by their ids). Of the nodes at one
level only one heads a given node, and what lies strictly below a node has its parent there too.
-/
namespace CorpusIndex.Forest
open Relation

/-- The node stands this many levels below a root. -/
def Stands (f : Forest) (depth : Nat) (c : String) : Prop := ∃ p, f.nodes.get? p = some c ∧ f.Depth p depth

/-- `x` is the node `c`, or lies below it. -/
def Heads (f : Forest) (c x : String) : Prop :=
  ∃ p q, f.nodes.get? p = some c ∧ f.nodes.get? q = some x ∧ f.Below p q

variable {f : Forest} {parent : Option String} {a c c' x y : String}
  {l : List (Nat × String)} {depth p : Nat}

theorem Stands.heads_self (h : f.Stands depth c) : f.Heads c c := by
  obtain ⟨p, hp, _⟩ := h
  exact ⟨p, p, hp, hp, .refl⟩

/-- A leaf heads itself alone. -/
theorem Heads.eq_of_isLeaf (h : f.Heads c x) (hleaf : f.isLeaf c = true) : x = c := by
  obtain ⟨p, q, hp, hq, hpq⟩ := h
  rcases ReflTransGen.cases_head hpq with rfl | ⟨r, ⟨a, ha, hh⟩, _⟩
  · exact Option.some.inj (hq.symm.trans hp)
  · cases hp.symm.trans ha
    exact (isLeaf_iff.mp hleaf r hh).elim

section WellFormed
variable (w : f.WellFormed)
include w

theorem parent?_of_isChild (hp : f.nodes.get? p = some x) (h : f.IsChild parent p) : f.parent? x = parent := by
  cases parent with
  | none => exact (w.parent?_eq_none hp).mpr h
  | some a => rw [parent?, (w.inverse x p).mpr hp, Option.bind_some, w.parentOf?_eq_some.mpr h]

theorem Heads.trans (h : f.Heads c x) (h' : f.Heads x y) : f.Heads c y := by
  obtain ⟨p, q, hp, hq, hpq⟩ := h
  obtain ⟨q', r, hq', hr, hqr⟩ := h'
  cases w.position_eq hq hq'
  exact ⟨p, r, hp, hr, hpq.trans hqr⟩

/-- Of the nodes at one level only one heads a given node. -/
theorem Heads.eq_of_stands (h : f.Heads c x) (h' : f.Heads c' x) (hc : f.Stands depth c)
    (hc' : f.Stands depth c') : c = c' := by
  -- the upper one of two nodes above a third is not at the level of the lower one
  have hlower {p p' : Nat} (hd : f.Depth p depth) (hd' : f.Depth p' depth) (hpp : f.Below p p') : p' = p := by
    obtain ⟨e, he, _, hsame⟩ := hd.along hpp
    exact hsame (w.depth_unique he hd')
  obtain ⟨p, q, hp, hq, hpq⟩ := h
  obtain ⟨p', q', hp', hq', hpq'⟩ := h'
  obtain ⟨r, hr, hd⟩ := hc
  obtain ⟨r', hr', hd'⟩ := hc'
  cases w.position_eq hq hq'
  cases w.position_eq hp hr
  cases w.position_eq hp' hr'
  have hsame : p = p' := (w.below_total hpq hpq').elim (fun h => (hlower hd hd' h).symm) (hlower hd' hd)
  subst hsame
  exact Option.some.inj (hp.symm.trans hp')

/-- Of nodes headed by different nodes of one level none heads another. -/
theorem not_heads_of_ne (hne : c ≠ c') (hc : f.Stands depth c) (hc' : f.Stands depth c') (hx : f.Heads c x)
    (hy : f.Heads c' y) : ¬ f.Heads x y :=
  fun h => hne ((hx.trans w h).eq_of_stands w hy hc hc')

/-- What lies strictly below a node has its parent there too. -/
theorem Heads.parent_heads (h : f.Heads c x) (hne : x ≠ c) : ∃ a, f.parent? x = some a ∧ f.Heads c a := by
  obtain ⟨p, q, hp, hq, hpq⟩ := h
  rcases ReflTransGen.cases_tail hpq with rfl | ⟨r, hpr, a, ha, hh⟩
  · exact (hne (Option.some.inj (hq.symm.trans hp))).elim
  · exact ⟨a, parent?_of_isChild w hq hh, p, r, hp, ha, hpr⟩

theorem edge_of_parent? (h : f.parent? x = some a) :
    ∃ p q, f.nodes.get? p = some a ∧ f.nodes.get? q = some x ∧ f.Edge p q := by
  obtain ⟨q, hq, h⟩ := Option.bind_eq_some_iff.mp h
  obtain ⟨p, hp, he⟩ := w.holds_iff_edge.mp (w.parentOf?_eq_some.mp h)
  exact ⟨p, q, hp, (w.inverse x q).mp hq, he⟩

/-- A node heads no other one with the same parent. -/
theorem Heads.eq_of_parent? (h : f.Heads c x) (hsame : f.parent? x = f.parent? c) : x = c := by
  by_contra hne
  obtain ⟨a, ha, p, q, hp, hq, hpq⟩ := h.parent_heads w hne
  obtain ⟨q', p', hq', hp', he⟩ := edge_of_parent? w (hsame ▸ ha)
  cases w.position_eq hp hp'
  cases w.position_eq hq hq'
  exact w.acyclic w.rooted he hpq

theorem parent?_of_childrenOf (hl : f.childrenOf parent = .ok l) (hx : x ∈ l.map (·.2)) :
    f.parent? x = parent := by
  obtain ⟨q, hq, hchild⟩ := (childrenOf_eq_ok.mp hl).2.mem_ids.mp hx
  exact parent?_of_isChild w hq hchild

theorem heads_of_childrenOf (hl : f.childrenOf (some c) = .ok l) (hx : x ∈ l.map (·.2)) : f.Heads c x := by
  obtain ⟨q, hq, hchild⟩ := (childrenOf_eq_ok.mp hl).2.mem_ids.mp hx
  obtain ⟨p, hp, he⟩ := w.holds_iff_edge.mp hchild
  exact ⟨p, q, hp, hq, .single he⟩

/-- What a node heads is the node itself or is headed by one of its children. -/
theorem Heads.through (hl : f.childrenOf (some c) = .ok l) (h : f.Heads c x) :
    x = c ∨ ∃ d ∈ l.map (·.2), f.Heads d x := by
  obtain ⟨p, q, hp, hq, hpq⟩ := h
  rcases ReflTransGen.cases_head hpq with rfl | ⟨r, he, hrq⟩
  · exact .inl (Option.some.inj (hq.symm.trans hp))
  · obtain ⟨a, ha, hh⟩ := he
    cases hp.symm.trans ha
    obtain ⟨d, hd⟩ := w.occupied c r hh
    exact .inr ⟨d, (childrenOf_eq_ok.mp hl).2.mem_ids.mpr ⟨r, hd, hh⟩, r, q, hd, hq, hrq⟩

end WellFormed

end CorpusIndex.Forest
