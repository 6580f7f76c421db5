import CorpusIndex.Proofs.Forest.Siblings

/-!
# Walking down a forest

`Walk` meets a row of nodes and everything below them depth first, the children of a node in position
order. `Tiered` says of a node that all leaves below it are the same number of levels down, with a bounded
number of children on every level between. A new root leaves the walks of old nodes as they are and
puts itself in front of the walk of what it adopts.
-/
namespace CorpusIndex.Forest

/-- A walk over the nodes `ids` and all that is below them meets `met`. -/
inductive Walk (f : Forest) : (ids met : List String) → Prop
  | nil : Walk f [] []
  | node {id : String} {l : List (Nat × String)} {ids below beside : List String}
      (children : f.childrenOf (some id) = .ok l) (down : Walk f (l.map (·.2)) below)
      (on : Walk f ids beside) : Walk f (id :: ids) (id :: (below ++ beside))

/-- The leaves below the node are `height` levels down, and each node above them has at most `width`
children. -/
inductive Tiered (f : Forest) (width : Nat) : (height : Nat) → (id : String) → Prop
  | leaf {id : String} (bare : f.childrenOf (some id) = .ok []) : Tiered f width 0 id
  | inner {id : String} {l : List (Nat × String)} {height : Nat} (children : f.childrenOf (some id) = .ok l)
      (covers : l ≠ []) (narrow : l.length ≤ width) (below : ∀ e ∈ l, Tiered f width height e.2) :
      Tiered f width (height + 1) id

variable {f : Forest} {id x : String} {ids ids' met met' : List String} {l : List (Nat × String)}
  {adopted : SortedSet Nat} {p d height width : Nat}

theorem contains_of_childrenOf (h : f.childrenOf (some x) = .ok l) : f.contains x = true :=
  (childrenOf_eq_ok.mp h).1 x rfl

/-- A node is a leaf if no children are read off, and only then. -/
theorem isLeaf_of_childrenOf (h : f.childrenOf (some x) = .ok l) : f.isLeaf x = l.isEmpty := by
  have hchildren := (childrenOf_eq_ok.mp h).2.children
  rw [Bool.eq_iff_iff, isLeaf_iff, List.isEmpty_iff]
  constructor
  · intro hnone
    apply List.eq_nil_iff_forall_not_mem.mpr
    intro e he
    exact hnone e.1 ((hchildren e.1).mpr (List.mem_map_of_mem he))
  · rintro rfl q hq
    exact List.not_mem_nil ((hchildren q).mp hq)

/-! ### Walks -/

namespace Walk

theorem unique (h : f.Walk ids met) (h' : f.Walk ids met') : met = met' := by
  induction h generalizing met' with
  | nil =>
      cases h'
      rfl
  | node children _ _ ihdown ihon =>
      cases h' with
      | node children' down' on' =>
          cases children.symm.trans children'
          rw [ihdown down', ihon on']

theorem append (h : f.Walk ids met) (h' : f.Walk ids' met') : f.Walk (ids ++ ids') (met ++ met') := by
  induction h with
  | nil => exact h'
  | node children down _ _ ihon =>
      rw [List.cons_append, List.cons_append, List.append_assoc]
      exact .node children down ihon

theorem split (h : f.Walk (ids ++ ids') met) :
    ∃ first last, f.Walk ids first ∧ f.Walk ids' last ∧ met = first ++ last := by
  induction ids generalizing met with
  | nil => exact ⟨[], met, .nil, h, rfl⟩
  | cons id ids ih =>
      cases h with
      | node children down on =>
          obtain ⟨first, last, hfirst, hlast, rfl⟩ := ih on
          exact ⟨_, last, .node children down hfirst, hlast, by simp⟩

theorem contains (h : f.Walk ids met) : ∀ x ∈ met, f.contains x = true := by
  induction h with
  | nil => simp
  | node children _ _ ihdown ihon =>
      intro x hx
      rcases List.mem_cons.mp hx with rfl | hx
      · exact contains_of_childrenOf children
      · rcases List.mem_append.mp hx with hx | hx
        · exact ihdown x hx
        · exact ihon x hx

theorem setSummary (h : f.Walk ids met) (summary : Option String) :
    ({ f with summary } : Forest).Walk ids met := by
  induction h with
  | nil => exact .nil
  | node children _ _ ihdown ihon => exact .node children ihdown ihon

end Walk

/-! ### Heights -/

/-- Going down from nodes of one height, height is lost as depth is gained. -/
theorem Tiered.along (hroots : ∀ q y, f.nodes.get? q = some y → f.IsRoot q →
    f.Tiered width height y) (hd : f.Depth p d) (hp : f.nodes.get? p = some x) :
    ∃ rest, d + rest = height ∧ f.Tiered width rest x := by
  induction hd generalizing x with
  | root hr => exact ⟨height, Nat.zero_add _, hroots _ x hp hr⟩
  | child _ he ih =>
      obtain ⟨a, ha, hh⟩ := he
      obtain ⟨rest, hsum, htiered⟩ := ih ha
      cases htiered with
      | leaf bare =>
          have hnone := isLeaf_of_childrenOf bare
          exact (isLeaf_iff.mp hnone _ hh).elim
      | @inner _ l rest children covers narrow below =>
          have hin := ((childrenOf_eq_ok.mp children).2.children _).mp hh
          obtain ⟨e, he, rfl⟩ := List.mem_map.mp hin
          cases ((childrenOf_eq_ok.mp children).2.nodes e he).symm.trans hp
          exact ⟨rest, by omega, below e he⟩

theorem Depth.setSummary (h : f.Depth p d) (summary : Option String) :
    ({ f with summary } : Forest).Depth p d := by
  induction h with
  | root hr => exact .root hr
  | child _ he ih => exact .child ih he

/-! ### Under a new root -/

section Graft
variable (hg : f.Graftable id none adopted p) (w : f.Wired)
include hg w

theorem childrenOf_graft (h : f.childrenOf (some x) = .ok l) :
    (f.graft id none adopted p).childrenOf (some x) = .ok l := by
  have hx := contains_of_childrenOf h
  have hne : x ≠ id := by
    rintro rfl
    cases hx.symm.trans hg.fresh
  apply childrenOf_eq_ok.mpr
  constructor
  · rintro _ ⟨⟩
    exact contains_graft.mpr (.inr hx)
  · exact (childrenOf_eq_ok.mp h).2.graft_of_ne hg w hne (by simp)

/-- What the new root adopts is read off in the order in which it stood. -/
theorem childrenOf_graft_self (hl : f.Ascending l)
    (hadopted : ∀ q, q ∈ adopted ↔ ∃ c ∈ l.map (·.2), f.nodes.get? q = some c) :
    (f.graft id none adopted p).childrenOf (some id) = .ok l := by
  apply childrenOf_eq_ok.mpr
  constructor
  · rintro _ ⟨⟩
    exact contains_graft.mpr (.inl rfl)
  · exact hl.siblings_graft hg w hadopted

theorem Walk.graft (h : f.Walk ids met) : (f.graft id none adopted p).Walk ids met := by
  induction h with
  | nil => exact .nil
  | node children _ _ ihdown ihon => exact .node (childrenOf_graft hg w children) ihdown ihon

theorem Tiered.graft (h : f.Tiered width height x) :
    (f.graft id none adopted p).Tiered width height x := by
  induction h with
  | leaf bare => exact .leaf (childrenOf_graft hg w bare)
  | inner children covers narrow _ ih => exact .inner (childrenOf_graft hg w children) covers narrow ih

/-- Among nodes met before, a graft makes no leaf an inner node. -/
theorem Walk.filter_graft (h : f.Walk ids met) :
    met.filter (f.graft id none adopted p).isLeaf = met.filter f.isLeaf := by
  apply List.filter_congr
  intro x hx
  have hne : x ≠ id := by
    rintro rfl
    cases (h.contains x hx).symm.trans hg.fresh
  exact hg.isLeaf_graft_of_ne w (by simp) hne

end Graft

end CorpusIndex.Forest
