import CorpusIndex.Proofs.Forest.Edits
import CorpusIndex.Proofs.Forest.Pruning

/-!
# What a deletion leaves and reports

`Prunes` says which nodes a deletion takes out. Here is where the others stand afterwards: a node that
stays comes below the nearest node above it that stays too (`Spliced.edge_iff`) and is a root where there
is none (`Spliced.isRoot_iff`). The ids that come back are those of the nodes that are gone.
-/
namespace CorpusIndex.Forest
open Relation

/-- Of the nodes above `p` that `g` has kept, the one at `q` is the nearest. -/
structure NearestAbove (f g : Forest) (q p : Nat) : Prop where
  above : TransGen f.Edge q p
  kept : g.Occupied q
  nearest : ∀ r, TransGen f.Edge r p → g.Occupied r → ReflTransGen f.Edge r q

/-- `g` is left of `f` and `ids` are reported after the nodes of a document are taken out. -/
structure Deletes (f : Forest) (store : NodeStore) (doc : String) (g : Forest) (ids : List String) :
    Prop where
  wellFormed : g.WellFormed
  gone_iff : ∀ p, f.Occupied p →
    (¬ g.Occupied p ↔ f.OwnedAt store [doc] p ∨ (f.DerivedAt store p ∧ f.Hollow g p))
  nodes : ∀ p y, g.nodes.get? p = some y → f.nodes.get? p = some y
  parent_iff : ∀ p y a, g.nodes.get? p = some y →
    (g.parent? y = some a ↔ ∃ q, f.nodes.get? q = some a ∧ f.NearestAbove g q p)
  isRoot_iff : ∀ p, g.Occupied p → (g.IsRoot p ↔ ∀ q, TransGen f.Edge q p → ¬ g.Occupied q)
  reported_iff : ∀ y, y ∈ ids ↔ f.contains y = true ∧ g.contains y = false
  reported_once : ids.Nodup

variable {f g : Forest} {store : NodeStore} {doc a : String} {ids : List String} {p q : Nat}

/-! ### Where the nodes that stay come to stand -/

theorem Wired.edge_iff_parentOf? (w : f.Wired) (hq : f.nodes.get? q = some a) :
    f.parentOf? p = some a ↔ f.Edge q p := by
  rw [w.parentOf?_eq_some]
  constructor
  · intro h
    exact ⟨a, hq, h⟩
  · intro ⟨b, hb, h⟩
    cases hq.symm.trans hb
    exact h

namespace Spliced
variable (hg : f.Spliced g)
include hg

theorem edge_iff (w : f.WellFormed) (hp : g.Occupied p) : g.Edge q p ↔ f.NearestAbove g q p := by
  rw [hg.wellFormed.edge_iff_above]
  constructor
  · intro ⟨hqp, hnone⟩
    obtain ⟨hqp', hq, _⟩ := (hg.above q p).mp hqp
    refine ⟨hqp', hq, fun r hrp hr => ?_⟩
    rcases w.below_total hrp.to_reflTransGen hqp'.to_reflTransGen with hrq | hqr
    · exact hrq
    · rcases reflTransGen_iff_eq_or_transGen.mp hqr with rfl | hqr
      · exact .refl
      · -- a node kept between the two would be in between in `g` as well
        exact (hnone r ((hg.above q r).mpr ⟨hqr, hq, hr⟩) ((hg.above r p).mpr ⟨hrp, hr, hp⟩)).elim
  · intro h
    refine ⟨(hg.above q p).mpr ⟨h.above, h.kept, hp⟩, fun r hqr hrp => ?_⟩
    obtain ⟨hqr, _, hr⟩ := (hg.above q r).mp hqr
    exact w.above_irrefl (hqr.trans_left (h.nearest r ((hg.above r p).mp hrp).1 hr))

theorem isRoot_iff (hp : g.Occupied p) :
    g.IsRoot p ↔ ∀ q, TransGen f.Edge q p → ¬ g.Occupied q := by
  rw [hg.wellFormed.isRoot_iff, and_iff_right (show ∃ id, g.nodes.get? p = some id from hp)]
  constructor
  · intro hnone q hqp hq
    obtain ⟨r, _, b, _, hb⟩ := TransGen.tail'_iff.mp ((hg.above q p).mpr ⟨hqp, hq, hp⟩)
    exact hnone b hb
  · intro hnone b hb
    obtain ⟨q, hq, hqp⟩ := hg.wellFormed.holds_iff_edge.mp hb
    exact hnone q ((hg.above q p).mp (.single hqp)).1 ⟨b, hq⟩

theorem parent_iff (w : f.WellFormed) {y : String} (hp : g.nodes.get? p = some y) :
    g.parent? y = some a ↔ ∃ q, f.nodes.get? q = some a ∧ f.NearestAbove g q p := by
  rw [parent?, (hg.wellFormed.inverse y p).mpr hp, Option.bind_some]
  constructor
  · intro hpar
    obtain ⟨q, hq⟩ := hg.wellFormed.holds_present (hg.wellFormed.parentOf?_eq_some.mp hpar)
    have hedge := (hg.wellFormed.edge_iff_parentOf? hq).mp hpar
    exact ⟨q, hg.nodes q a hq, (hg.edge_iff w ⟨y, hp⟩).mp hedge⟩
  · intro habove
    obtain ⟨q, hq, hnearest⟩ := habove
    have hq' : g.nodes.get? q = some a := (hg.get?_nodes hnearest.kept).trans hq
    exact (hg.wellFormed.edge_iff_parentOf? hq').mpr ((hg.edge_iff w ⟨y, hp⟩).mpr hnearest)

end Spliced

/-! ### What is reported -/

theorem ownedBy_nodup (w : f.Wired) (h : f.ownedBy doc store = .ok ids) : ids.Nodup := by
  obtain ⟨ns, hns, h⟩ := bind_eq_ok.mp h
  cases pure_eq_ok.mp h
  have hids : ns.map (·.1) = f.nodeIds := by
    have hstep (id : String) (e : String × Node)
        (he : (do return (id, ← store.resolve id) : Except Failure (String × Node)) = .ok e) : e.1 = id := by
      obtain ⟨n, _, he⟩ := bind_eq_ok.mp he
      cases pure_eq_ok.mp he
      rfl
    exact map_of_mapM_eq_ok hstep hns
  exact (hids ▸ w.nodeIds_nodup).sublist (List.filter_sublist.map _)

/-- The ids that come back from a deletion are those the forest has lost. -/
theorem WellFormed.deleteDocument_reports (w : f.WellFormed)
    (h : f.deleteDocument doc store = (g, .ok ids)) :
    ids.Nodup ∧ ∀ y, y ∈ ids ↔ f.contains y = true ∧ g.contains y = false := by
  unfold deleteDocument at h
  cases hown : f.ownedBy doc store with
  | error e => simp [hown] at h
  | ok doomed =>
      obtain ⟨hres, hmem⟩ := ownedBy_eq_ok w hown
      obtain ⟨g', pruned, hall, hwithout, hpruned, hnd⟩ := w.removeAll_without doomed doomed hres
      simp only [hown, hall] at h
      split at h
      · simp at h
      · obtain ⟨rfl, hids⟩ := Prod.mk.inj h
        cases hids
        constructor
        · apply List.nodup_append'.mpr
          exact ⟨ownedBy_nodup w.toWired hown, hnd, fun y hy hy' => (hpruned y hy').2.1 hy⟩
        · intro y
          have hin : y ∈ doomed ++ pruned → f.contains y = true := by
            intro hy
            rcases List.mem_append.mp hy with hy | hy
            · exact ((hmem y).mp hy).1
            · exact (hpruned y hy).1
          rw [← Bool.not_eq_true, hwithout.contains_iff w]
          tauto

/-- A deletion takes out the document's nodes and the derived nodes above these alone. Every other node
keeps its id and its position and comes below the nearest node above it that stays, and each id that is
gone is reported once. -/
theorem deletion_keeps_nearest_ancestors (hf : f.Built)
    (hres : ∀ p y, f.nodes.get? p = some y → ∃ n, store.nodes.get? y = some n)
    (h : f.deleteDocument doc store = (g, .ok ids)) : f.Deletes store doc g ids := by
  have w := hf.wellFormed
  have hg : f.Prunes store [doc] g := by
    have hprunes := w.deleteDocument_prunes doc hres
    rwa [h] at hprunes
  obtain ⟨hnd, hreported⟩ := w.deleteDocument_reports h
  exact {
    wellFormed := hg.wellFormed
    gone_iff := hg.gone_iff
    nodes := hg.nodes
    parent_iff := fun _ _ _ hp => hg.parent_iff w hp
    isRoot_iff := fun _ hp => hg.isRoot_iff hp
    reported_iff := hreported
    reported_once := hnd }

/-- Two derived nodes below a node of the document `d`, one with a node of another document under it. -/
def mixedTree : Forest :=
  after { id := "t" } [.insertUnder "d0" none none, .insertUnder "kept" (some "d0") none,
    .insertUnder "d1" (some "kept") none, .insertUnder "e" (some "d1") none,
    .insertUnder "hollow" (some "d0") none, .insertUnder "d2" (some "hollow") none]

def mixedStore : NodeStore :=
  [{ id := "d0", text := "", document := some "d" }, { id := "kept", text := "" },
    { id := "d1", text := "", document := some "d" }, { id := "e", text := "", document := some "e" },
    { id := "hollow", text := "" }, { id := "d2", text := "", document := some "d" }].foldl .put {}

theorem stored_mixedTree : ∀ p y, mixedTree.nodes.get? p = some y →
    ∃ n, mixedStore.nodes.get? y = some n := by
  intro p y hp
  have hall : ∀ e ∈ mixedTree.nodes.toList, (mixedStore.nodes.get? e.2).isSome := by decide
  exact Option.isSome_iff_exists.mp (hall (p, y) (SortedMap.get?_eq_some_iff.mp hp))

/-- Without `d`, the derived node that had only nodes of `d` below it is gone with them, and the other one
is a root and has taken in the node below its own child. -/
theorem deletion_keeps_nearest_ancestors_mixedTree :
    mixedTree.Deletes mixedStore "d" (mixedTree.deleteDocument "d" mixedStore).1
        ["d0", "d1", "d2", "hollow"] ∧
      (mixedTree.deleteDocument "d" mixedStore).1.nodes.toList = [(1, "kept"), (3, "e")] ∧
      (mixedTree.deleteDocument "d" mixedStore).1.parent? "e" = some "kept" := by
  have hids : (mixedTree.deleteDocument "d" mixedStore).2 = .ok ["d0", "d1", "d2", "hollow"] := by
    decide +kernel
  refine ⟨deletion_keeps_nearest_ancestors ⟨"t", none, _, rfl⟩ stored_mixedTree
    (Prod.ext rfl hids), ?_, ?_⟩
  · decide +kernel
  · decide +kernel

end CorpusIndex.Forest
