import CorpusIndex.Proofs.Forest.Checked
import Mathlib.Data.Set.Card

/-!
# Which forests the check accepts

The check is local but for one number: it compares how many positions are met from the roots with how many
nodes there are. A root without a node counts as met, so it makes up for a node that no root leads to
(`validate_eq_ok_iff`), and a circle passes beside it. With the two conditions that the check leaves out, that
every root is a node under its own id and that no id is kept of a node that is gone, it accepts
the well-formed forests and no others.
-/
namespace CorpusIndex.Forest

variable {f : Forest} {p q : Nat}

/-- What the check asks of single nodes and links. -/
structure LocallySound (f : Forest) : Prop where
  found : ∀ p id, f.nodes.get? p = some id → f.positions.get? id = some p
  named : ∀ a below, f.children.get? a = some below → f.contains a = true
  occupied : ∀ a p, f.Holds a p → f.Occupied p
  single : ∀ a b p, f.Holds a p → f.Holds b p → a = b
  isRoot_iff : ∀ p, f.Occupied p → (f.IsRoot p ↔ ∀ a, ¬ f.Holds a p)

theorem locallySound_iff : f.LocallySound ↔ f.checkChildren = .ok () ∧ f.checkNodes = .ok () := by
  rw [checkChildren_eq_ok, checkNodes_eq_ok]
  constructor
  · intro h
    refine ⟨⟨h.named, h.occupied⟩, fun p id hp => ?_⟩
    exact ⟨h.found p id hp, fun a b => h.single a b p, h.isRoot_iff p ⟨id, hp⟩⟩
  · intro ⟨⟨hnamed, hocc⟩, hnode⟩
    refine ⟨fun p id hp => (hnode p id hp).1, hnamed, hocc, fun a b p ha hb => ?_, fun p hp => ?_⟩
    · obtain ⟨id, hid⟩ := hocc a p ha
      exact (hnode p id hid).2.1 a b ha hb
    · obtain ⟨id, hid⟩ := hp
      exact (hnode p id hid).2.2

/-! ### Counting -/

theorem ncard_of_nodup {l : List Nat} (h : l.Nodup) : {x | x ∈ l}.ncard = l.length := by
  rw [← List.coe_toFinset, Set.ncard_coe_finset, List.toFinset_card_of_nodup h]

theorem ncard_occupied : {p | f.Occupied p}.ncard = f.size := by
  have hkeys : {p | f.Occupied p} = {p | p ∈ f.nodes.keys} := Set.ext fun p => SortedMap.mem_keys.symm
  rw [hkeys, ncard_of_nodup f.nodes.keys_nodup]
  simp [size, SortedMap.keys, SortedMap.size]

theorem finite_occupied : {p | f.Occupied p}.Finite := by
  apply f.nodes.keys.finite_toSet.subset
  intro p hp
  exact SortedMap.mem_keys.mpr hp

/-- What is met and is no node is a root. -/
theorem met_unoccupied (hocc : ∀ a p, f.Holds a p → f.Occupied p) (hp : f.Met p)
    (hnone : ¬ f.Occupied p) : f.IsRoot p := by
  obtain ⟨r, hr, hrp⟩ := hp
  rcases Relation.ReflTransGen.cases_tail hrp with rfl | ⟨q, _, a, _, ha⟩
  · exact hr
  · exact (hnone (hocc a p ha)).elim

/-- Nodes and positions met differ by the nodes that no root leads to and the roots without a node. -/
theorem size_eq_iff (hocc : ∀ a p, f.Holds a p → f.Occupied p) {all : SortedSet Nat}
    (hall : ∀ x, x ∈ all ↔ f.Met x) : all.size = f.size ↔
      {p | f.Occupied p ∧ ¬ f.Met p}.ncard = {p | f.IsRoot p ∧ ¬ f.Occupied p}.ncard := by
  have hset : {p | f.Met p} = {p | p ∈ all.elems} :=
    Set.ext fun p => ((hall p).symm.trans SortedSet.mem_elems.symm)
  have hcard : {p | f.Met p}.ncard = all.size := by
    rw [hset, ncard_of_nodup (SortedSet.elems_nodup all), SortedSet.size_eq_length]
  have hfinite : {p | f.Met p}.Finite := hset ▸ all.elems.finite_toSet
  have hroots : {p | f.Met p} \ {p | f.Occupied p} = {p | f.IsRoot p ∧ ¬ f.Occupied p} := by
    ext p
    constructor
    · intro ⟨hp, hnone⟩
      exact ⟨met_unoccupied hocc hp hnone, hnone⟩
    · intro ⟨hp, hnone⟩
      exact ⟨⟨p, hp, .refl⟩, hnone⟩
  have hmet := Set.ncard_inter_add_ncard_sdiff_eq_ncard {p | f.Met p} {p | f.Occupied p} hfinite
  have hnodes := Set.ncard_inter_add_ncard_sdiff_eq_ncard {p | f.Occupied p} {p | f.Met p}
    finite_occupied
  rw [hroots, hcard] at hmet
  rw [Set.inter_comm, ncard_occupied] at hnodes
  change _ ↔ ({p | f.Occupied p} \ {p | f.Met p}).ncard = _
  omega

theorem LocallySound.treelike (h : f.LocallySound) : f.Treelike :=
  (checked_of_checks (locallySound_iff.mp h).1 (locallySound_iff.mp h).2).treelike

/-- The check passes where nodes and links are in order and there are as many nodes that no root leads to
as roots without a node. -/
theorem validate_eq_ok_iff : f.validate = .ok () ↔ f.LocallySound ∧
    {p | f.Occupied p ∧ ¬ f.Met p}.ncard = {p | f.IsRoot p ∧ ¬ f.Occupied p}.ncard := by
  constructor
  · intro h
    obtain ⟨_, hchildren, h'⟩ := bind_eq_ok.mp h
    obtain ⟨_, hnodes, _⟩ := bind_eq_ok.mp h'
    have hlocal := locallySound_iff.mpr ⟨hchildren, hnodes⟩
    obtain ⟨_, _, all, hall, hsize⟩ := hlocal.treelike.validate_eq_ok.mp h
    exact ⟨hlocal, (size_eq_iff hlocal.occupied hall).mp hsize⟩
  · intro ⟨hlocal, hcount⟩
    obtain ⟨hchildren, hnodes⟩ := locallySound_iff.mp hlocal
    obtain ⟨all, _, hall⟩ := hlocal.treelike.reach_eq_ok
    apply hlocal.treelike.validate_eq_ok.mpr
    exact ⟨hchildren, hnodes, all, hall, (size_eq_iff hlocal.occupied hall).mpr hcount⟩

/-! ### What the check leaves out -/

/-- Every root is the node at its position. -/
def RootsAreNodes (f : Forest) : Prop := ∀ p id, f.roots.get? p = some id → f.nodes.get? p = some id

/-- Every id with a position is the node there. -/
def IdsAreNodes (f : Forest) : Prop := ∀ id p, f.positions.get? id = some p → f.nodes.get? p = some id

theorem LocallySound.wired (h : f.LocallySound) (hroots : f.RootsAreNodes) (hids : f.IdsAreNodes) :
    f.Wired where
  inverse id p := ⟨hids id p, h.found p id⟩
  roots_iff p id := by
    constructor
    · intro hr
      have hp := hroots p id hr
      exact ⟨hp, (h.isRoot_iff p ⟨id, hp⟩).mp ⟨id, hr⟩⟩
    · intro ⟨hp, hnone⟩
      obtain ⟨y, hy⟩ := (h.isRoot_iff p ⟨id, hp⟩).mpr hnone
      cases hp.symm.trans (hroots p y hy)
      exact hy
  parent_present a below hget := by
    obtain ⟨q, hq⟩ := SortedMap.contains_iff.mp (h.named a below hget)
    exact ⟨q, hids a q hq⟩
  occupied := h.occupied
  single := h.single

/-- Where every root is a node, no node is left out by the walk. -/
theorem met_of_validate (h : f.validate = .ok ()) (hroots : f.RootsAreNodes) (hp : f.Occupied p) :
    f.Met p := by
  obtain ⟨_, hcount⟩ := validate_eq_ok_iff.mp h
  have hnone : {p | f.IsRoot p ∧ ¬ f.Occupied p} = ∅ := by
    apply Set.eq_empty_of_forall_notMem
    intro q ⟨⟨id, hid⟩, hfree⟩
    exact hfree ⟨id, hroots q id hid⟩
  rw [hnone, Set.ncard_empty, Set.ncard_eq_zero (finite_occupied.subset fun _ hq => hq.1)] at hcount
  by_contra hout
  exact Set.notMem_empty p (hcount ▸ ⟨hp, hout⟩)

/-- The check accepts exactly the forests whose nodes and links are in order and whose nodes that no root
leads to are as many as the roots without a node. The well-formed ones among them are those whose roots
and ids are all of nodes. -/
theorem accepted_iff (f : Forest) :
    (f.validate = .ok () ↔ f.LocallySound ∧
      {p | f.Occupied p ∧ ¬ f.Met p}.ncard = {p | f.IsRoot p ∧ ¬ f.Occupied p}.ncard) ∧
    (f.Wired ∧ f.Rooted ↔ f.validate = .ok () ∧ f.RootsAreNodes ∧ f.IdsAreNodes) := by
  refine ⟨validate_eq_ok_iff, ?_⟩
  constructor
  · intro ⟨w, hrooted⟩
    refine ⟨validate_of_rooted w hrooted, fun p id hr => ((w.roots_iff p id).mp hr).1, ?_⟩
    intro id p
    exact (w.inverse id p).mp
  · intro ⟨h, hroots, hids⟩
    have w := (validate_eq_ok_iff.mp h).1.wired hroots hids
    refine ⟨w, fun p id hp => ?_⟩
    obtain ⟨r, hr, hrp⟩ := met_of_validate h hroots ⟨id, hp⟩
    exact ⟨r, ⟨hr, hrp⟩, fun s hs => w.root_unique hs.1 hr hs.2 hrp⟩

/-- One node below itself, and a root where there is no node. -/
def circleBesideRoot : Forest where
  id := "t"
  nodes := .ofList [(0, "a")]
  roots := .ofList [(7, "x")]
  positions := .ofList [("a", 0)]
  children := .ofList [("a", .ofElems [0])]

/-- The circle passes: the root without a node stands in for it in the count. -/
theorem not_every_accepted_wellFormed :
    ¬ ∀ f : Forest, f.validate = .ok () ↔ f.Wired ∧ f.Rooted := by
  intro hall
  have hpass : circleBesideRoot.validate = .ok () := by decide +kernel
  obtain ⟨w, hrooted⟩ := (hall circleBesideRoot).mp hpass
  have hself : circleBesideRoot.Edge 0 0 :=
    ⟨"a", rfl, holds_iff.mpr ⟨.ofElems [0], rfl, SortedSet.mem_ofElems.mpr (List.mem_singleton_self 0)⟩⟩
  exact w.acyclic hrooted hself .refl

end CorpusIndex.Forest
