import CorpusIndex.Proofs.Forest.Splice
import CorpusIndex.Proofs.Forest.Validation

/-!
# What a passed check says of a forest

A forest that was read from a file may pass the check and still name roots that are not there: the check
asks of every node whether it is rightly a root, and not of every root whether it is a node. Everything
below a root is sound (`Checked`), so a forest with occupied roots can be walked.
-/
namespace CorpusIndex.Forest

variable {f : Forest}

/-- What the check establishes of nodes and links. -/
structure Checked (f : Forest) : Prop where
  found : ∀ p id, f.nodes.get? p = some id → f.positions.get? id = some p
  occupied : ∀ a p, f.Holds a p → f.Occupied p
  single : ∀ a b p, f.Holds a p → f.Holds b p → a = b
  parentless : ∀ a p, f.IsRoot p → ¬ f.Holds a p

theorem checked_of_checks (hchildren : f.checkChildren = .ok ()) (hnodes : f.checkNodes = .ok ()) :
    f.Checked := by
  have hocc := (checkChildren_eq_ok.mp hchildren).2
  have hnode := checkNodes_eq_ok.mp hnodes
  refine ⟨fun p id hp => (hnode p id hp).1, hocc, fun a b p ha hb => ?_, fun a p hr ha => ?_⟩
  · obtain ⟨id, hid⟩ := hocc a p ha
    exact (hnode p id hid).2.1 a b ha hb
  · obtain ⟨id, hid⟩ := hocc a p ha
    exact (hnode p id hid).2.2.mp hr a ha

theorem checked_of_validate (h : f.validate = .ok ()) : f.Checked := by
  obtain ⟨_, hchildren, h⟩ := bind_eq_ok.mp h
  obtain ⟨_, hnodes, _⟩ := bind_eq_ok.mp h
  exact checked_of_checks hchildren hnodes

namespace Checked
variable (h : f.Checked)
include h

theorem treelike : f.Treelike where
  edge_unique q r p := by
    rintro ⟨a, ha, hap⟩ ⟨b, hb, hbp⟩
    cases h.single a b p hap hbp
    exact Option.some.inj ((h.found q a ha).symm.trans (h.found r a hb))
  not_edge_root q p hr := by
    rintro ⟨a, _, ha⟩
    exact h.parentless a p hr ha

theorem walkable (hroots : ∀ p, f.IsRoot p → f.Occupied p) : f.Walkable where
  edge_unique := h.treelike.edge_unique
  not_edge_root := h.treelike.not_edge_root
  occupied p hp := by
    rcases hp with hr | ⟨q, a, _, ha⟩
    · exact hroots p hr
    · exact h.occupied a p ha

end Checked

end CorpusIndex.Forest
