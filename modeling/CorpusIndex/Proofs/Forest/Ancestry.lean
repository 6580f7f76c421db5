import CorpusIndex.Proofs.Forest.Edits
import CorpusIndex.Proofs.Forest.Splice

/-!
# What stays above what when a forest grows

To take a node out undoes the graft that brought it in (`removeNode_graft`). So a forest is what is left
of its graft once the new node is gone, and the order among old nodes is the same before and after.
`Placed` describes all four insertions: new nodes below one place, and some nodes of that place
moved below them.
-/
namespace CorpusIndex.Forest
open Relation

/-- `g` has the nodes of `f` where they were, with the same ones above one another, and new ones at
positions that were free. -/
structure Grows (f g : Forest) (added : List (Nat × String)) : Prop where
  wellFormed : g.WellFormed
  fresh : ∀ e ∈ added, f.contains e.2 = false
  free : ∀ e ∈ added, f.nodes.get? e.1 = none
  nodes : ∀ q y, g.nodes.get? q = some y ↔ (q, y) ∈ added ∨ f.nodes.get? q = some y
  above : ∀ q r, f.Occupied q → f.Occupied r → (TransGen g.Edge q r ↔ TransGen f.Edge q r)

/-- The new nodes come below `parent`, or among the roots. The nodes `cs` were there and come below the
new ones, and nothing else is moved. -/
structure Placed (f g : Forest) (parent : Option String) (cs : List String)
    (added : List (Nat × String)) : Prop extends Grows f g added where
  listed : ∀ c ∈ cs, ∃ q, f.nodes.get? q = some c ∧ f.IsChild parent q
  below_new : ∀ e ∈ added, ∀ q, g.Holds e.2 q ↔ ∃ c ∈ cs, f.nodes.get? q = some c
  elsewhere : ∀ place, (∀ e ∈ added, place ≠ some e.2) → ∀ q, (g.IsChild place q ↔
    (place = parent ∧ q ∈ added.map (·.1)) ∨
      (f.IsChild place q ∧ ¬(place = parent ∧ ∃ c ∈ cs, f.nodes.get? q = some c)))

variable {f g h : Forest} {id : String} {parent : Option String} {at? : Option Nat}
  {adopted taken siblings below : SortedSet Nat} {cs ids : List String} {added : List (Nat × String)}
  {p q r : Nat}

/-! ### A graft undone -/

namespace Graftable
variable (hg : f.Graftable id parent adopted p) (w : f.WellFormed)
include hg w

/-- A link of the old forest is one of the graft, or leads over the new node. -/
theorem edge_iff_over : f.Edge r q ↔ r ≠ p ∧ q ≠ p ∧ ((f.graft id parent adopted p).Edge r q ∨
    ((f.graft id parent adopted p).Edge r p ∧ (f.graft id parent adopted p).Edge p q)) := by
  have hfree {a : String} {q : Nat} (hh : f.Holds a q) : q ≠ p := by
    rintro rfl
    obtain ⟨y, hy⟩ := w.occupied a q hh
    cases hg.free.symm.trans hy
  have hnew : (f.graft id parent adopted p).nodes.get? p = some id := SortedMap.get?_insert_self ..
  constructor
  · intro ⟨a, ha, hh⟩
    have hrp : r ≠ p := by
      rintro rfl
      cases hg.free.symm.trans ha
    refine ⟨hrp, hfree hh, ?_⟩
    by_cases hmoved : parent = some a ∧ q ∈ adopted
    · right
      constructor
      · exact ⟨a, hg.keeps_node ha, (hg.holds_graft w.toWired).mpr (.inr (.inl ⟨hmoved.1, rfl⟩))⟩
      · exact ⟨id, hnew, (hg.holds_graft w.toWired).mpr (.inl ⟨rfl, hmoved.2⟩)⟩
    · left
      exact ⟨a, hg.keeps_node ha, (hg.holds_graft w.toWired).mpr (.inr (.inr ⟨hh, hmoved⟩))⟩
  · intro ⟨hrp, hqp, hor⟩
    have hold {a : String} (ha : (f.graft id parent adopted p).nodes.get? r = some a) :
        f.nodes.get? r = some a := by
      rcases SortedMap.get?_insert_eq_some.mp ha with ⟨rfl, _⟩ | ⟨_, ha⟩
      · exact (hrp rfl).elim
      · exact ha
    rcases hor with ⟨a, ha, hh⟩ | ⟨⟨a, ha, hap⟩, b, hb, hbq⟩
    · rcases (hg.holds_graft w.toWired).mp hh with ⟨rfl, _⟩ | ⟨_, rfl⟩ | ⟨hh, _⟩
      · exact (hg.ne_of_node w.toWired (hold ha) rfl).elim
      · exact (hqp rfl).elim
      · exact ⟨a, hold ha, hh⟩
    · cases hnew.symm.trans hb
      have hq := (hg.holds_graft_self w.toWired).mp hbq
      rcases (hg.holds_graft w.toWired).mp hap with ⟨rfl, _⟩ | ⟨hpar, _⟩ | ⟨hh, _⟩
      · exact (hg.ne_of_node w.toWired (hold ha) rfl).elim
      · subst hpar
        exact ⟨a, hold ha, hg.adopted_below q hq⟩
      · exact (hfree hh rfl).elim

/-- Taking the new node out again gives back the forest. -/
theorem removeNode_graft : ((f.graft id parent adopted p).removeNode id).1 = f := by
  have w' := hg.wellFormed_graft w
  have hnew : (f.graft id parent adopted p).nodes.get? p = some id := SortedMap.get?_insert_self ..
  have hcut := w'.removeNode_spliced hnew
  have hedge : ((f.graft id parent adopted p).removeNode id).1.Edge = f.Edge := by
    funext r q
    rw [edge_removeNode_iff w' hnew, hg.edge_iff_over w]
  apply hcut.wellFormed.eq_of_above w hcut.id_eq hcut.summary_eq
  · apply SortedMap.ext_get?
    intro q
    rw [(nodes_removeNode w' hnew).1, nodes_graft]
    by_cases hq : q = p
    · rw [hq, SortedMap.get?_erase_self, hg.free]
    · rw [SortedMap.get?_erase_of_ne _ hq, SortedMap.get?_insert_of_ne _ _ hq]
  · intro q r
    rw [hedge]

/-- A graft leaves its nodes above one another as they were. -/
theorem spliced : (f.graft id parent adopted p).Spliced f := by
  have hcut := (hg.wellFormed_graft w).removeNode_spliced (SortedMap.get?_insert_self ..)
  rwa [hg.removeNode_graft w] at hcut

/-- What a graft that adopts the nodes `cs` does. -/
theorem placed (hadopted : ∀ q, q ∈ adopted ↔ ∃ c ∈ cs, f.nodes.get? q = some c)
    (hcs : ∀ c ∈ cs, f.contains c = true) :
    f.Placed (f.graft id parent adopted p) parent cs [(p, id)] where
  wellFormed := hg.wellFormed_graft w
  fresh e he := by
    cases List.mem_singleton.mp he
    exact hg.fresh
  free e he := by
    cases List.mem_singleton.mp he
    exact hg.free
  nodes q y := by
    rw [nodes_graft, SortedMap.get?_insert_eq_some, List.mem_singleton, Prod.mk.injEq]
    have hne : f.nodes.get? q = some y → q ≠ p := by
      rintro hy rfl
      cases hg.free.symm.trans hy
    tauto
  above q r hq hr := by
    rw [(hg.spliced w).above q r]
    exact (and_iff_left ⟨hq, hr⟩).symm
  listed c hc := by
    obtain ⟨q, hq⟩ := w.contains_iff.mp (hcs c hc)
    exact ⟨q, hq, hg.adopted_below q ((hadopted q).mpr ⟨c, hc, hq⟩)⟩
  below_new e he q := by
    cases List.mem_singleton.mp he
    rw [hg.holds_graft_self w.toWired, hadopted]
  elsewhere place hplace q := by
    have hne : place ≠ some id := hplace (p, id) (List.mem_singleton_self _)
    rw [hg.isChild_graft_of_ne w.toWired hne, hadopted, List.map_singleton, List.mem_singleton]

end Graftable

/-! ### Many nodes in a row -/

theorem Placed.contains_iff (w : f.WellFormed) (hg : f.Placed g parent cs added) {y : String} :
    g.contains y = true ↔ y ∈ added.map (·.2) ∨ f.contains y = true := by
  rw [hg.wellFormed.contains_iff, w.contains_iff]
  simp only [hg.nodes, exists_or, List.mem_map, Prod.exists, exists_eq_right]

/-- No new node. -/
theorem Placed.nil (w : f.WellFormed) (parent : Option String) : f.Placed f parent [] [] where
  wellFormed := w
  fresh := by simp
  free := by simp
  nodes := by simp
  above _ _ _ _ := Iff.rfl
  listed := by simp
  below_new := by simp
  elsewhere := by simp

/-- One new node, and then others beside it. -/
theorem Placed.cons (w : f.WellFormed) (hpar : ∀ a, parent = some a → f.contains a = true)
    (hg : f.Placed g parent [] [(p, id)]) (hh : g.Placed h parent [] added) :
    f.Placed h parent [] ((p, id) :: added) where
  wellFormed := hh.wellFormed
  fresh e he := by
    rcases List.mem_cons.mp he with rfl | he
    · exact hg.fresh _ (List.mem_singleton_self _)
    · have hnew := hh.fresh e he
      rw [← Bool.not_eq_true, hg.contains_iff w, not_or] at hnew
      exact Bool.not_eq_true _ ▸ hnew.2
  free e he := by
    rcases List.mem_cons.mp he with rfl | he
    · exact hg.free _ (List.mem_singleton_self _)
    · apply Option.eq_none_iff_forall_ne_some.mpr
      intro y hy
      cases (hh.free e he).symm.trans ((hg.nodes e.1 y).mpr (.inr hy))
  nodes q y := by
    simp only [hh.nodes, hg.nodes, List.mem_cons, List.not_mem_nil, or_false]
    tauto
  above q r hq hr := by
    have hkeep {q : Nat} (hq : f.Occupied q) : g.Occupied q := by
      obtain ⟨y, hy⟩ := hq
      exact ⟨y, (hg.nodes q y).mpr (.inr hy)⟩
    rw [hh.above q r (hkeep hq) (hkeep hr), hg.above q r hq hr]
  listed := by simp
  below_new e he q := by
    rcases List.mem_cons.mp he with rfl | he
    · have hold : ∀ e ∈ added, some id ≠ some e.2 := by
        intro e he hid
        have hin : g.contains id = true := (hg.contains_iff w).mpr (.inl (by simp))
        rw [Option.some.inj hid, hh.fresh e he] at hin
        cases hin
      have hparent : some id ≠ parent := by
        intro hid
        cases (hpar id hid.symm).symm.trans (hg.fresh (p, id) (List.mem_singleton_self _))
      have hbelow := hh.elsewhere (some id) hold q
      rw [iff_false_intro hparent, false_and, false_or, false_and, not_false_iff, and_true] at hbelow
      exact hbelow.trans (hg.below_new (p, id) (List.mem_singleton_self _) q)
    · simpa using hh.below_new e he q
  elsewhere place hplace q := by
    have hrest : ∀ e ∈ added, place ≠ some e.2 := fun e he => hplace e (List.mem_cons_of_mem _ he)
    have hfirst : ∀ e ∈ [(p, id)], place ≠ some e.2 := by
      intro e he
      cases List.mem_singleton.mp he
      exact hplace (p, id) List.mem_cons_self
    rw [hh.elsewhere place hrest, hg.elsewhere place hfirst]
    simp only [List.map_cons, List.map_nil, List.mem_cons, List.not_mem_nil, or_false, false_and,
      exists_false, and_false, not_false_iff, and_true]
    tauto

/-- A node at the next position stands last. -/
theorem lastKey?_graft (hp : f.nextPosition = .ok p) :
    (f.graft id parent adopted p).nodes.lastKey? = some p := by
  cases hlast : (f.graft id parent adopted p).nodes.lastKey? with
  | none => cases (SortedMap.lastKey?_eq_none hlast p).symm.trans (SortedMap.get?_insert_self ..)
  | some last =>
      have hle : last ≤ p := by
        obtain ⟨y, hy⟩ := SortedMap.lastKey?_occupied hlast
        rcases SortedMap.get?_insert_eq_some.mp hy with ⟨rfl, _⟩ | ⟨_, hy⟩
        · exact Nat.le_refl _
        · exact Nat.le_of_lt (lt_nextPosition hp hy)
      rcases SortedMap.le_lastKey? hlast (SortedMap.get?_insert_self f.nodes p id) with rfl | hlt
      · rfl
      · exact (Nat.not_le_of_lt (Nat.compare_eq_lt.mp hlt) hle).elim

/-- After a node at the next position, the position after it is next. -/
theorem nextPosition_graft (hp : f.nextPosition = .ok p)
    (hq : (f.graft id parent adopted p).nextPosition = .ok q) : q = p + 1 := by
  unfold nextPosition at hq
  simp only [lastKey?_graft hp] at hq
  split at hq
  · cases hq
    rfl
  · cases hq

/-- A row of new nodes stands at the next positions, one after another. -/
theorem attachAll_placed (w : f.WellFormed) (hpar : ∀ a, parent = some a → f.contains a = true)
    (hnd : ids.Nodup) (hnew : ∀ id ∈ ids, f.contains id = false) {ps : List Nat}
    (h : attachAll parent f ids = (g, .ok ps)) :
    f.Placed g parent [] (ps.zip ids) ∧
      ((ids = [] ∧ ps = []) ∨ ∃ p, f.nextPosition = .ok p ∧ ps = List.range' p ids.length) := by
  induction ids generalizing f ps with
  | nil =>
      cases h
      exact ⟨.nil w parent, .inl ⟨rfl, rfl⟩⟩
  | cons id ids ih =>
      unfold attachAll at h
      cases hp : f.nextPosition with
      | error e => simp [hp] at h
      | ok p =>
          obtain ⟨hid, hnd⟩ := List.nodup_cons.mp hnd
          have hgraft : f.Graftable id parent ∅ p :=
            ⟨hnew id (by simp), nextPosition_free hp, hpar, by simp⟩
          have hfirst : f.Placed (f.graft id parent ∅ p) parent [] [(p, id)] :=
            hgraft.placed w (by simp) (by simp)
          have hrest (x : String) (hx : x ∈ ids) : (f.graft id parent ∅ p).contains x = false := by
            rw [← Bool.not_eq_true, contains_graft, not_or]
            exact ⟨fun e => hid (e ▸ hx), by simp [hnew x (by simp [hx])]⟩
          simp only [hp, attach_eq_graft] at h
          obtain ⟨rfl, hps⟩ := Prod.mk.inj h
          obtain ⟨qs, hqs, rfl⟩ := map_eq_ok.mp hps
          obtain ⟨hplaced, hrow⟩ := ih (hgraft.wellFormed_graft w)
            (fun a ha => contains_graft.mpr (.inr (hpar a ha))) hnd hrest (Prod.ext rfl hqs)
          refine ⟨.cons w hpar hfirst hplaced, .inr ⟨p, rfl, ?_⟩⟩
          rcases hrow with ⟨rfl, rfl⟩ | ⟨q, hq, rfl⟩
          · rfl
          · rw [nextPosition_graft hp hq, List.length_cons, List.range'_succ]

/-! ### The four insertions -/

theorem contains_of_position (h : f.position id = .ok p) : f.contains id = true :=
  SortedMap.contains_iff.mpr ⟨p, position_eq_ok.mp h⟩

theorem adoptRoots_present (h : f.adoptRoots taken cs = .ok below) : ∀ c ∈ cs, f.contains c = true := by
  induction cs generalizing taken with
  | nil => simp
  | cons c cs ih =>
      obtain ⟨p, hp, h⟩ := bind_eq_ok.mp h
      rw [List.forall_mem_cons]
      split at h
      next => cases h
      next =>
        split at h
        next => cases h
        next => exact ⟨contains_of_position hp, ih h⟩

theorem adoptFrom_present (h : f.adoptFrom parent siblings taken cs = .ok below) :
    ∀ c ∈ cs, f.contains c = true := by
  induction cs generalizing taken with
  | nil => simp
  | cons c cs ih =>
      obtain ⟨p, hp, h⟩ := bind_eq_ok.mp h
      rw [List.forall_mem_cons]
      split at h
      next => exact ⟨contains_of_position hp, ih h⟩
      next => cases h

namespace WellFormed
variable (w : f.WellFormed)
include w

theorem insert_placed (h : f.insert id at? cs = .ok (g, p)) : f.Placed g none cs [(p, id)] := by
  obtain ⟨below, _, hgraft, rfl, hbelow⟩ := insert_eq_ok w.toWired h
  obtain ⟨_, _, h⟩ := bind_eq_ok.mp h
  obtain ⟨_, _, h⟩ := bind_eq_ok.mp h
  obtain ⟨_, hadopt, _⟩ := bind_eq_ok.mp h
  exact hgraft.placed w hbelow (adoptRoots_present hadopt)

theorem insertUnder_placed (h : f.insertUnder id parent at? = .ok (g, p)) :
    f.Placed g parent [] [(p, id)] := by
  obtain ⟨_, hgraft, rfl⟩ := insertUnder_eq_ok h
  exact hgraft.placed w (by simp) (by simp)

theorem insertBetween_placed (h : f.insertBetween id parent cs = .ok (g, p)) :
    f.Placed g parent cs [(p, id)] := by
  obtain ⟨below, _, hgraft, rfl, hbelow⟩ := insertBetween_eq_ok w.toWired h
  obtain ⟨_, _, h⟩ := bind_eq_ok.mp h
  obtain ⟨_, _, h⟩ := bind_eq_ok.mp h
  obtain ⟨_, _, h⟩ := bind_eq_ok.mp h
  obtain ⟨_, hadopt, _⟩ := bind_eq_ok.mp h
  exact hgraft.placed w hbelow (adoptFrom_present hadopt)

theorem insertManyUnder_placed {ps : List Nat} (h : f.insertManyUnder ids parent = (g, .ok ps)) :
    f.Placed g parent [] (ps.zip ids) ∧
      ((ids = [] ∧ ps = []) ∨ ∃ p, f.nextPosition = .ok p ∧ ps = List.range' p ids.length) := by
  unfold insertManyUnder at h
  cases hcheck : (f.checkParent parent >>= fun _ => f.checkNew [] ids) with
  | error e => simp [hcheck] at h
  | ok _ =>
      obtain ⟨_, hpar, hids⟩ := bind_eq_ok.mp hcheck
      obtain ⟨hnd, hnew⟩ := checkNew_eq_ok hids
      rw [hcheck] at h
      exact attachAll_placed w (checkParent_eq_ok.mp hpar) hnd (fun id hid => (hnew id hid).2) h

end WellFormed

/-- Every insertion that succeeds adds the nodes asked for and leaves the others where they are and above
one another as they were. A new root takes over the roots that are listed, a node put between a parent and
its children those that are listed, and a row of nodes stands at consecutive positions. -/
theorem insertions_keep_ancestry (hf : f.Built) :
    (∀ id at? cs g p, f.insert id at? cs = .ok (g, p) → f.Placed g none cs [(p, id)]) ∧
    (∀ id parent at? g p, f.insertUnder id parent at? = .ok (g, p) →
      f.Placed g parent [] [(p, id)]) ∧
    (∀ ids parent g ps, f.insertManyUnder ids parent = (g, .ok ps) →
      f.Placed g parent [] (ps.zip ids) ∧
        ((ids = [] ∧ ps = []) ∨ ∃ p, f.nextPosition = .ok p ∧ ps = List.range' p ids.length)) ∧
    (∀ id parent cs g p, f.insertBetween id parent cs = .ok (g, p) →
      f.Placed g parent cs [(p, id)]) := by
  have w := hf.wellFormed
  constructor
  · intro id at? cs g p h
    exact w.insert_placed h
  constructor
  · intro id parent at? g p h
    exact w.insertUnder_placed h
  constructor
  · intro ids parent g ps h
    exact w.insertManyUnder_placed h
  · intro id parent cs g p h
    exact w.insertBetween_placed h

/-- A root with two children, beside another root. -/
def twoRoots : Forest :=
  after { id := "t" } [.insertUnder "r" none none, .insertManyUnder ["a", "b"] (some "r"),
    .insertUnder "x" none (some 7)]

/-- Around `twoRoots`: a new root above both, a node below a leaf, a row of nodes, and a node between the
root and one of its children. -/
theorem insertions_keep_ancestry_twoRoots :
    (∃ g, twoRoots.insert "n" none ["x", "r"] = .ok (g, 8) ∧
      twoRoots.Placed g none ["x", "r"] [(8, "n")]) ∧
    (∃ g, twoRoots.insertUnder "n" (some "a") (some 4) = .ok (g, 4) ∧
      twoRoots.Placed g (some "a") [] [(4, "n")]) ∧
    (∃ g, twoRoots.insertManyUnder ["n", "m"] (some "a") = (g, .ok [8, 9]) ∧
      twoRoots.Placed g (some "a") [] [(8, "n"), (9, "m")]) ∧
    (∃ g, twoRoots.insertBetween "n" (some "r") ["b"] = .ok (g, 8) ∧
      twoRoots.Placed g (some "r") ["b"] [(8, "n")]) := by
  have hall := insertions_keep_ancestry (show twoRoots.Built from ⟨"t", none, _, rfl⟩)
  constructor
  · obtain ⟨g, hg⟩ : ∃ g, twoRoots.insert "n" none ["x", "r"] = .ok (g, 8) := ⟨_, rfl⟩
    exact ⟨g, hg, hall.1 _ _ _ _ _ hg⟩
  constructor
  · obtain ⟨g, hg⟩ : ∃ g, twoRoots.insertUnder "n" (some "a") (some 4) = .ok (g, 4) := ⟨_, rfl⟩
    exact ⟨g, hg, hall.2.1 _ _ _ _ _ hg⟩
  constructor
  · obtain ⟨g, hg⟩ : ∃ g, twoRoots.insertManyUnder ["n", "m"] (some "a") = (g, .ok [8, 9]) := ⟨_, rfl⟩
    exact ⟨g, hg, (hall.2.2.1 _ _ _ _ hg).1⟩
  · obtain ⟨g, hg⟩ : ∃ g, twoRoots.insertBetween "n" (some "r") ["b"] = .ok (g, 8) := ⟨_, rfl⟩
    exact ⟨g, hg, hall.2.2.2 _ _ _ _ _ hg⟩

end CorpusIndex.Forest
