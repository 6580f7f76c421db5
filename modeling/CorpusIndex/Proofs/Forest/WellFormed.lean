import CorpusIndex.Index.Forest
import CorpusIndex.Proofs.SortedMap
import Mathlib.Data.List.Perm.Subperm
import Mathlib.Logic.Relation

/-!
# Well-formed forests

`Wired` says that the four maps of a forest agree with one another, position by position. It does not
exclude a circle of links; `Rooted` does, by asking that every node lies below exactly one root.

Operations are followed through `Depth`, the level of a position below its root: a wired forest is
rooted as soon as every node has a depth (`Wired.rooted`), depths are unique, and none reaches the number
of nodes (`Wired.depth_lt_size`), which bounds every descent.
-/
namespace CorpusIndex.Forest
open Relation

/-- The position is recorded below the node `parent`. -/
def Holds (f : Forest) (parent : String) (p : Nat) : Prop := p ∈ f.children.getD parent ∅

/-- The node at `p` is recorded below the node at `q`. -/
def Edge (f : Forest) (q p : Nat) : Prop :=
  ∃ parent, f.nodes.get? q = some parent ∧ f.Holds parent p

def IsRoot (f : Forest) (p : Nat) : Prop := ∃ id, f.roots.get? p = some id

/-- The position is below `parent`, or is a root where no parent is named. -/
def IsChild (f : Forest) (parent : Option String) (p : Nat) : Prop :=
  match parent with
  | none => f.IsRoot p
  | some a => f.Holds a p

/-- The maps of a forest agree: `positions` inverts `nodes`, the roots are the nodes below no other, and
every recorded set of children belongs to a node, holds occupied positions only and shares none with
another set. -/
structure Wired (f : Forest) : Prop where
  inverse : ∀ id p, f.positions.get? id = some p ↔ f.nodes.get? p = some id
  roots_iff : ∀ p id, f.roots.get? p = some id ↔
    f.nodes.get? p = some id ∧ ∀ parent, ¬ f.Holds parent p
  parent_present : ∀ parent below, f.children.get? parent = some below →
    ∃ q, f.nodes.get? q = some parent
  occupied : ∀ parent p, f.Holds parent p → ∃ id, f.nodes.get? p = some id
  single : ∀ a b p, f.Holds a p → f.Holds b p → a = b

/-- Every node is reached from exactly one root. -/
def Rooted (f : Forest) : Prop :=
  ∀ p id, f.nodes.get? p = some id → ∃! r, f.IsRoot r ∧ ReflTransGen f.Edge r p

/-- A forest in the proper sense: its maps agree, every node is reached from exactly one root, and no
empty set of children is kept. -/
structure WellFormed (f : Forest) : Prop extends Wired f where
  rooted : f.Rooted
  inhabited : ∀ parent below, f.children.get? parent = some below → ∃ p, p ∈ below

/-- The node at `p` is `d` levels below a root. -/
inductive Depth (f : Forest) : (p d : Nat) → Prop
  | root {p : Nat} : f.IsRoot p → Depth f p 0
  | child {q p d : Nat} : Depth f q d → f.Edge q p → Depth f p (d + 1)

variable {f : Forest} {a b id : String} {p q r d e : Nat}

theorem holds_iff : f.Holds a p ↔ ∃ below, f.children.get? a = some below ∧ p ∈ below := by
  rw [Holds, SortedMap.getD_eq]
  cases f.children.get? a <;> simp

theorem isLeaf_iff : f.isLeaf a = true ↔ ∀ p, ¬ f.Holds a p := SortedSet.isEmpty_iff

theorem not_isLeaf_iff : f.isLeaf a = false ↔ ∃ p, f.Holds a p := SortedSet.isEmpty_eq_false_iff

theorem isRoot_iff_contains : f.IsRoot p ↔ f.roots.contains p = true :=
  SortedMap.contains_iff.symm

theorem Depth.reaches (h : f.Depth p d) : ∃ r, f.IsRoot r ∧ ReflTransGen f.Edge r p := by
  induction h with
  | root h => exact ⟨_, h, .refl⟩
  | child _ he ih =>
      obtain ⟨r, hr, hp⟩ := ih
      exact ⟨r, hr, hp.tail he⟩

/-- Depth grows along every path. -/
theorem Depth.along (h : f.Depth q d) (hp : ReflTransGen f.Edge q p) :
    ∃ e, f.Depth p e ∧ d ≤ e ∧ (e = d → p = q) := by
  induction hp with
  | refl => exact ⟨d, h, Nat.le_refl _, fun _ => rfl⟩
  | tail _ he ih =>
      obtain ⟨e, hd, hle, _⟩ := ih
      exact ⟨e + 1, hd.child he, by omega, by omega⟩

theorem Rooted.depth (h : f.Rooted) (hp : f.nodes.get? p = some id) : ∃ d, f.Depth p d := by
  obtain ⟨r, ⟨hr, hrp⟩, _⟩ := h p id hp
  obtain ⟨d, hd, _⟩ := (Depth.root hr).along hrp
  exact ⟨d, hd⟩

/-! ### Depth -/

/-- What bounds a walk from the roots downward: nothing has two parents, a root has none, and what is
reached is occupied. -/
structure Walkable (f : Forest) : Prop where
  edge_unique : ∀ q r p, f.Edge q p → f.Edge r p → q = r
  not_edge_root : ∀ q p, f.IsRoot p → ¬ f.Edge q p
  occupied : ∀ p, f.IsRoot p ∨ (∃ q, f.Edge q p) → ∃ id, f.nodes.get? p = some id

namespace Walkable
variable (w : f.Walkable)
include w

theorem depth_unique (hd : f.Depth p d) (he : f.Depth p e) : d = e := by
  induction hd generalizing e with
  | root hr =>
      cases he with
      | root => rfl
      | child _ h => exact (w.not_edge_root _ _ hr h).elim
  | child _ h ih =>
      cases he with
      | root hr => exact (w.not_edge_root _ _ hr h).elim
      | child hq hr => rw [ih (w.edge_unique _ _ _ h hr ▸ hq)]

theorem depth_occupied (h : f.Depth p d) : ∃ id, f.nodes.get? p = some id := by
  cases h with
  | root hr => exact w.occupied p (.inl hr)
  | child _ he => exact w.occupied p (.inr ⟨_, he⟩)

/-- A node at depth `d` comes with the `d` nodes above it, all at different depths. -/
theorem depth_lineage (h : f.Depth p d) : ∃ above : List Nat, above.length = d + 1 ∧ above.Nodup ∧
    ∀ q ∈ above, ∃ e, e ≤ d ∧ f.Depth q e := by
  induction h with
  | @root p hr =>
      refine ⟨[p], rfl, List.nodup_singleton p, fun q hq => ?_⟩
      rw [List.mem_singleton.mp hq]
      exact ⟨0, Nat.le_refl 0, .root hr⟩
  | @child q p d hq he ih =>
      obtain ⟨above, hlen, hnd, hdep⟩ := ih
      refine ⟨p :: above, by rw [List.length_cons, hlen], List.nodup_cons.mpr ⟨?_, hnd⟩, ?_⟩
      · intro hp
        obtain ⟨e, hle, hpe⟩ := hdep p hp
        have := w.depth_unique hpe (hq.child he)
        omega
      · intro r hr
        rcases List.mem_cons.mp hr with rfl | hr
        · exact ⟨d + 1, Nat.le_refl _, hq.child he⟩
        · obtain ⟨e, hle, hre⟩ := hdep r hr
          exact ⟨e, by omega, hre⟩

/-- No node is deeper than there are other nodes. -/
theorem depth_lt_size (h : f.Depth p d) : d < f.size := by
  obtain ⟨above, hlen, hnd, hdep⟩ := w.depth_lineage h
  have hsub : above ⊆ f.nodes.keys := by
    intro q hq
    obtain ⟨e, _, he⟩ := hdep q hq
    exact SortedMap.mem_keys.mpr (w.depth_occupied he)
  have hle := (hnd.subperm hsub).length_le
  have hsize : f.nodes.keys.length = f.size := by simp [size, SortedMap.keys, SortedMap.size]
  omega

end Walkable

/-! ### Wired forests -/

namespace Wired
variable (w : f.Wired)
include w

theorem position_eq (hp : f.nodes.get? p = some id) (hq : f.nodes.get? q = some id) : p = q :=
  Option.some.inj (((w.inverse id p).mpr hp).symm.trans ((w.inverse id q).mpr hq))

theorem contains_iff : f.contains id = true ↔ ∃ p, f.nodes.get? p = some id :=
  SortedMap.contains_iff.trans (exists_congr fun p => w.inverse id p)

theorem mem_nodeIds : id ∈ f.nodeIds ↔ f.contains id = true :=
  SortedMap.mem_values.trans w.contains_iff.symm

theorem nodeIds_nodup : f.nodeIds.Nodup :=
  SortedMap.values_nodup fun _ _ _ hp hq => w.position_eq hp hq

theorem holds_present (h : f.Holds a p) : ∃ q, f.nodes.get? q = some a := by
  obtain ⟨below, hb, _⟩ := holds_iff.mp h
  exact w.parent_present a below hb

theorem edge_unique (hq : f.Edge q p) (hr : f.Edge r p) : q = r := by
  obtain ⟨a, ha, hap⟩ := hq
  obtain ⟨b, hb, hbp⟩ := hr
  cases w.single a b p hap hbp
  exact w.position_eq ha hb

theorem isRoot_iff : f.IsRoot p ↔ (∃ id, f.nodes.get? p = some id) ∧ ∀ a, ¬ f.Holds a p := by
  simp only [IsRoot, w.roots_iff, exists_and_right]

theorem not_edge_root (hp : f.IsRoot p) : ¬ f.Edge q p :=
  fun ⟨a, _, ha⟩ => (w.isRoot_iff.mp hp).2 a ha

theorem walkable : f.Walkable where
  edge_unique _ _ _ := w.edge_unique
  not_edge_root _ _ := w.not_edge_root
  occupied p h := by
    rcases h with hr | ⟨_, a, _, ha⟩
    · exact (w.isRoot_iff.mp hr).1
    · exact w.occupied a p ha

theorem depth_unique (hd : f.Depth p d) (he : f.Depth p e) : d = e := w.walkable.depth_unique hd he

theorem depth_occupied (h : f.Depth p d) : ∃ id, f.nodes.get? p = some id := w.walkable.depth_occupied h

/-- Following links upward, two roots above one node come out at the same place. -/
theorem root_unique {s : Nat} (hr : f.IsRoot r) (hs : f.IsRoot s) (h : ReflTransGen f.Edge r p)
    (k : ReflTransGen f.Edge s p) : r = s := by
  induction h with
  | refl =>
      cases k with
      | refl => rfl
      | tail _ he => exact (w.not_edge_root hr he).elim
  | tail _ he ih =>
      cases k with
      | refl => exact (w.not_edge_root hs he).elim
      | tail hk ho => exact ih (w.edge_unique he ho ▸ hk)

theorem rooted (h : ∀ p id, f.nodes.get? p = some id → ∃ d, f.Depth p d) : f.Rooted := by
  intro p id hp
  obtain ⟨d, hd⟩ := h p id hp
  obtain ⟨r, hr, hrp⟩ := hd.reaches
  exact ⟨r, ⟨hr, hrp⟩, fun s hs => w.root_unique hs.1 hr hs.2 hrp⟩

theorem depth_lt_size (h : f.Depth p d) : d < f.size := w.walkable.depth_lt_size h

/-- The first parent found is the only one. -/
theorem parentOf?_eq_some : f.parentOf? p = some a ↔ f.Holds a p := by
  rw [parentOf?, Option.map_eq_some_iff]
  constructor
  · rintro ⟨⟨b, below⟩, hb, rfl⟩
    obtain ⟨hget, hmem⟩ := SortedMap.find?_eq_some hb
    exact holds_iff.mpr ⟨below, hget, hmem⟩
  · intro h
    obtain ⟨below, hget, hmem⟩ := holds_iff.mp h
    cases hfind : f.children.find? (fun _ below => below.contains p) with
    | none => cases hmem.symm.trans (SortedMap.find?_eq_none.mp hfind a below hget)
    | some found =>
        obtain ⟨b, below'⟩ := found
        obtain ⟨hget', hmem'⟩ := SortedMap.find?_eq_some hfind
        exact ⟨_, rfl, w.single b a p (holds_iff.mpr ⟨below', hget', hmem'⟩) h⟩

theorem parentOf?_eq_none : f.parentOf? p = none ↔ ∀ a, ¬ f.Holds a p := by
  rw [Option.eq_none_iff_forall_ne_some]
  exact forall_congr' fun a => not_congr w.parentOf?_eq_some

theorem isChild_occupied {parent : Option String} (h : f.IsChild parent p) :
    ∃ id, f.nodes.get? p = some id := by
  cases parent with
  | none => exact (w.isRoot_iff.mp h).1
  | some a => exact w.occupied a p h

/-- No node lies below itself. -/
theorem acyclic (h : f.Rooted) (hqp : f.Edge q p) : ¬ ReflTransGen f.Edge p q := by
  intro hpq
  obtain ⟨id, hq, hp⟩ := hqp
  obtain ⟨d, hd⟩ := h.depth hq
  obtain ⟨e, he, hle, _⟩ := (hd.child ⟨id, hq, hp⟩).along hpq
  have := w.depth_unique hd he
  omega

end Wired

theorem WellFormed.not_holds_self (w : f.WellFormed) (hp : f.nodes.get? p = some a) :
    ¬ f.Holds a p := fun h => w.acyclic w.rooted ⟨a, hp, h⟩ .refl

theorem wellFormed_empty (tree : String) (summary : Option String) :
    ({ id := tree, summary } : Forest).WellFormed := by
  have none (k : String) : ({ id := tree, summary } : Forest).children.get? k = none := rfl
  have holds (k : String) (p : Nat) : ¬ ({ id := tree, summary } : Forest).Holds k p := by
    simp [holds_iff, none]
  refine ⟨⟨by simp, by simp, ?_, ?_, ?_⟩, fun p id hp => ?_, ?_⟩
  · simp [none]
  · exact fun a p h => (holds a p h).elim
  · exact fun a b p h => (holds a p h).elim
  · simp at hp
  · simp [none]

end CorpusIndex.Forest
