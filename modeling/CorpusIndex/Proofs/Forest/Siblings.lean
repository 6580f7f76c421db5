import CorpusIndex.Proofs.Forest.Insertion
import Mathlib.Data.List.Sort

/-!
# Siblings in position order

`Siblings` describes what `childrenOf` reads off: the children of one parent, each at its position, in
ascending order. A graft leaves the siblings of every level as they are but its own, and what the new node
adopts become siblings below it, in the order in which they stood.
-/
namespace CorpusIndex.Forest

variable {f : Forest} {parent : Option String} {id x : String} {adopted : SortedSet Nat} {p q : Nat}
  {l l' : List (Nat × String)} {ids ids' : List String}

/-- Nodes at ascending positions. -/
structure Ascending (f : Forest) (l : List (Nat × String)) : Prop where
  positions : (l.map (·.1)).Pairwise (· < ·)
  nodes : ∀ e ∈ l, f.nodes.get? e.1 = some e.2

/-- The children of `parent`, or the roots, in position order. -/
structure Siblings (f : Forest) (parent : Option String) (l : List (Nat × String)) : Prop extends
    Ascending f l where
  children : ∀ q, f.IsChild parent q ↔ q ∈ l.map (·.1)

/-- There are at most `width` roots, and each node has at most `width` children. -/
def Narrow (width : Nat) (f : Forest) : Prop :=
  ∀ place l, f.childrenOf place = .ok l → l.length ≤ width

/-- The ids stand at ascending positions. -/
def InOrder (f : Forest) (ids : List String) : Prop := ∃ l, f.Ascending l ∧ l.map (·.2) = ids

/-! ### Reading off -/

theorem elems_ascending (s : SortedSet Nat) : s.elems.Pairwise (· < ·) :=
  List.pairwise_map.mpr (s.sorted.imp Nat.compare_eq_lt.mp)

theorem entry_eq_ok {e : Nat × String} (he : (match f.nodes.get? q with
    | some id => .ok (q, id)
    | none => .error (.corrupt (.childPosition q f.id)) : Except Failure (Nat × String)) = .ok e) :
    e.1 = q ∧ f.nodes.get? e.1 = some e.2 := by
  split at he
  next id hid =>
    cases he
    exact ⟨rfl, hid⟩
  next => cases he

theorem childrenOf_eq_ok : f.childrenOf parent = .ok l ↔
    (∀ a, parent = some a → f.contains a = true) ∧ f.Siblings parent l := by
  constructor
  · intro h
    obtain ⟨siblings, hsiblings, h⟩ := bind_eq_ok.mp h
    obtain ⟨hpar, hmem⟩ := mem_childPositions hsiblings
    have hpositions : l.map (·.1) = siblings.elems := map_of_mapM_eq_ok (fun q e he => (entry_eq_ok he).1) h
    refine ⟨hpar, ⟨?_, fun e he => ?_⟩, fun q => ?_⟩
    · rw [hpositions]
      exact elems_ascending siblings
    · obtain ⟨q, _, hq⟩ := mem_of_mapM_eq_ok h he
      exact (entry_eq_ok hq).2
    · rw [hpositions, SortedSet.mem_elems, hmem]
  · rintro ⟨hpar, hl⟩
    obtain ⟨siblings, hsiblings⟩ := childPositions_of_present hpar
    have hpositions : siblings.elems = l.map (·.1) := by
      apply (elems_ascending siblings).eq_of_mem_iff hl.positions
      intro q
      rw [SortedSet.mem_elems, (mem_childPositions hsiblings).2, hl.children]
    rw [childrenOf, hsiblings, ok_bind, hpositions]
    apply mapM_map_eq_ok
    intro e he
    rw [hl.nodes e he]

theorem Siblings.unique (h : f.Siblings parent l) (h' : f.Siblings parent l') : l = l' := by
  have hpositions : l.map (·.1) = l'.map (·.1) := by
    apply h.positions.eq_of_mem_iff h'.positions
    intro q
    rw [← h.children, ← h'.children]
  have hentries : ∀ {l : List (Nat × String)}, (∀ e ∈ l, f.nodes.get? e.1 = some e.2) →
      l = (l.map (·.1)).map fun q => (q, (f.nodes.get? q).getD "") := by
    intro l hl
    rw [List.map_map]
    refine ((List.map_congr_left fun e he => ?_).trans (List.map_id l)).symm
    simp [hl e he]
  rw [hentries h.nodes, hpositions, ← hentries h'.nodes]

theorem siblings_of_present (w : f.Wired) (hpar : ∀ a, parent = some a → f.contains a = true) :
    ∃ l, f.childrenOf parent = .ok l ∧ f.Siblings parent l := by
  obtain ⟨siblings, hsiblings⟩ := childPositions_of_present hpar
  have hocc (q : Nat) (hq : q ∈ siblings.elems) : f.nodes.get? q = some ((f.nodes.get? q).getD "") := by
    have hchild := ((mem_childPositions hsiblings).2 q).mp (SortedSet.mem_elems.mp hq)
    obtain ⟨id, hid⟩ := w.isChild_occupied hchild
    rw [hid, Option.getD_some]
  have hread : f.childrenOf parent = .ok (siblings.elems.map fun q => (q, (f.nodes.get? q).getD "")) := by
    rw [childrenOf, hsiblings, ok_bind]
    apply mapM_eq_ok
    intro q hq
    rw [hocc q hq]
    rfl
  exact ⟨_, hread, (childrenOf_eq_ok.mp hread).2⟩

/-- A level has no more nodes than there are positions it may have them at. -/
theorem Siblings.length_le {ps : List Nat} (hl : f.Siblings parent l)
    (h : ∀ q, f.IsChild parent q → q ∈ ps) : l.length ≤ ps.length := by
  have hnd : (l.map (·.1)).Nodup := hl.positions.imp Nat.ne_of_lt
  have hsub : l.map (·.1) ⊆ ps := fun q hq => h q ((hl.children q).mpr hq)
  simpa using (hnd.subperm hsub).length_le

theorem Ascending.sublist (h : f.Ascending l) (hl : l'.Sublist l) : f.Ascending l' where
  positions := h.positions.sublist (hl.map _)
  nodes e he := h.nodes e (hl.subset he)

theorem inOrder_nil (f : Forest) : f.InOrder [] := ⟨[], ⟨.nil, by simp⟩, rfl⟩

theorem InOrder.sublist (h : f.InOrder ids) (hids : ids'.Sublist ids) : f.InOrder ids' := by
  obtain ⟨l, hl, rfl⟩ := h
  obtain ⟨l', hl', rfl⟩ := List.sublist_map_iff.mp hids
  exact ⟨l', hl.sublist hl', rfl⟩

theorem InOrder.nodup (w : f.Wired) (h : f.InOrder ids) : ids.Nodup := by
  obtain ⟨l, hl, rfl⟩ := h
  have hpositions : (l.map (·.1)).Nodup := hl.positions.imp Nat.ne_of_lt
  refine (List.nodup_map_iff_inj_on (List.Nodup.of_map _ hpositions)).mpr fun d hd e he hsame => ?_
  have hposition : d.1 = e.1 := by
    apply w.position_eq (hl.nodes d hd)
    rw [hsame]
    exact hl.nodes e he
  exact Prod.ext hposition hsame

theorem Siblings.mem_ids (h : f.Siblings parent l) {c : String} :
    c ∈ l.map (·.2) ↔ ∃ q, f.nodes.get? q = some c ∧ f.IsChild parent q := by
  constructor
  · intro hc
    obtain ⟨e, he, rfl⟩ := List.mem_map.mp hc
    exact ⟨e.1, h.nodes e he, (h.children e.1).mpr (List.mem_map_of_mem he)⟩
  · rintro ⟨q, hq, hchild⟩
    obtain ⟨e, he, rfl⟩ := List.mem_map.mp ((h.children q).mp hchild)
    cases (h.nodes e he).symm.trans hq
    exact List.mem_map_of_mem he

/-! ### Grafts -/

section Graft
variable (h : f.Graftable id parent adopted p)
include h

theorem Ascending.graft (hl : f.Ascending l) : (f.graft id parent adopted p).Ascending l where
  positions := hl.positions
  nodes e he := h.keeps_node (hl.nodes e he)

theorem InOrder.graft (hids : f.InOrder ids) : (f.graft id parent adopted p).InOrder ids := by
  obtain ⟨l, hl, rfl⟩ := hids
  exact ⟨l, hl.graft h, rfl⟩

/-- The new node comes after all that stood in order. -/
theorem InOrder.snoc_graft (hp : f.nextPosition = .ok p) (hids : f.InOrder ids) :
    (f.graft id parent adopted p).InOrder (ids ++ [id]) := by
  obtain ⟨l, hl, rfl⟩ := hids
  refine ⟨l ++ [(p, id)], ⟨?_, fun e he => ?_⟩, by simp⟩
  · rw [List.map_append, List.pairwise_append]
    refine ⟨hl.positions, List.pairwise_singleton .., fun q hq r hr => ?_⟩
    obtain ⟨e, he, rfl⟩ := List.mem_map.mp hq
    cases List.mem_singleton.mp hr
    exact lt_nextPosition hp (hl.nodes e he)
  · rcases List.mem_append.mp he with he | he
    · exact (hl.graft h).nodes e he
    · rw [List.mem_singleton.mp he]
      exact SortedMap.get?_insert_self ..

/-- What the new node adopts is below it, in the order in which it stood. -/
theorem Ascending.siblings_graft (w : f.Wired) (hl : f.Ascending l)
    (hadopted : ∀ q, q ∈ adopted ↔ ∃ c ∈ l.map (·.2), f.nodes.get? q = some c) :
    (f.graft id parent adopted p).Siblings (some id) l where
  toAscending := hl.graft h
  children q := by
    refine ((h.holds_graft_self w).trans (hadopted q)).trans ?_
    constructor
    · rintro ⟨c, hc, hq⟩
      obtain ⟨e, he, rfl⟩ := List.mem_map.mp hc
      cases w.position_eq hq (hl.nodes e he)
      exact List.mem_map_of_mem he
    · intro hq
      obtain ⟨e, he, rfl⟩ := List.mem_map.mp hq
      exact ⟨e.2, List.mem_map_of_mem he, hl.nodes e he⟩

/-- Other levels keep their siblings. -/
theorem Siblings.graft_of_ne (w : f.Wired) (hx : x ≠ id) (hpar : parent ≠ some x)
    (hl : f.Siblings (some x) l) : (f.graft id parent adopted p).Siblings (some x) l where
  toAscending := hl.toAscending.graft h
  children q := (h.holds_graft_of_ne w hx hpar).trans (hl.children q)

end Graft

end CorpusIndex.Forest
