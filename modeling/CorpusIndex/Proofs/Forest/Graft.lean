import CorpusIndex.Proofs.Except
import CorpusIndex.Proofs.Forest.WellFormed

/-!
# Growing a forest

Every insertion is a graft: a new node at a free position below one parent, or as a root, that takes
over some of that parent's children. `WellFormed.graft` shows that a graft keeps a forest well formed,
and the lemmas named after the insertions say which graft each of them performs.
-/
namespace CorpusIndex.Forest

/-- `id` at position `p` below `parent`, with `adopted` taken from `parent` and put below `id`. -/
def graft (f : Forest) (id : String) (parent : Option String) (adopted : SortedSet Nat) (p : Nat) :
    Forest :=
  let above := if adopted.isEmpty then f.children else f.children.insert id adopted
  { f with
    nodes := f.nodes.insert p id
    positions := f.positions.insert id p
    roots := match parent with
      | none => (f.roots.filter (fun q _ => !adopted.contains q)).insert p id
      | some _ => f.roots
    children := match parent with
      | none => above
      | some a => above.insert a
          (SortedSet.add ((f.children.getD a ∅).filter (fun q _ => !adopted.contains q)) p) }

/-- The node is new, the position free, the parent there, and what is adopted is below it. -/
structure Graftable (f : Forest) (id : String) (parent : Option String) (adopted : SortedSet Nat)
    (p : Nat) : Prop where
  fresh : f.contains id = false
  free : f.nodes.get? p = none
  parent_present : ∀ a, parent = some a → f.contains a = true
  adopted_below : ∀ q ∈ adopted, f.IsChild parent q

variable {f g : Forest} {id a b x y : String} {parent : Option String} {adopted : SortedSet Nat}
  {p q r d : Nat}

/-! ### What a graft changes -/

@[simp] theorem nodes_graft : (f.graft id parent adopted p).nodes = f.nodes.insert p id := rfl

@[simp] theorem positions_graft :
    (f.graft id parent adopted p).positions = f.positions.insert id p := rfl

theorem contains_graft : (f.graft id parent adopted p).contains x = true ↔
    x = id ∨ f.contains x = true := by
  rw [contains, positions_graft, SortedMap.contains, SortedMap.get?_insert]
  by_cases h : x = id
  · simp [h]
  · rw [if_neg fun e => h (Std.LawfulEqCmp.eq_of_compare e).symm]
    simp [h, contains, SortedMap.contains]

theorem children_graft_get? (h : parent ≠ some id) : (f.graft id parent adopted p).children.get? x =
    if parent = some x then
      some (SortedSet.add ((f.children.getD x ∅).filter (fun q _ => !adopted.contains q)) p)
    else if x = id ∧ adopted.isEmpty = false then some adopted
    else f.children.get? x := by
  have above : (if adopted.isEmpty then f.children else f.children.insert id adopted).get? x =
      if x = id ∧ adopted.isEmpty = false then some adopted else f.children.get? x := by
    cases adopted.isEmpty with
    | true => simp
    | false =>
        by_cases hx : x = id
        · simp [hx]
        · simp [hx, SortedMap.get?_insert_of_ne _ _ hx]
  cases parent with
  | none => simpa [graft] using above
  | some a =>
      by_cases hx : a = x
      · subst hx
        simp [graft]
      · rw [if_neg fun e => hx (Option.some.inj e), ← above]
        exact SortedMap.get?_insert_of_ne _ _ (Ne.symm hx)

namespace Graftable
variable (h : f.Graftable id parent adopted p)
include h

theorem parent_ne : parent ≠ some id := by
  intro e
  cases (h.parent_present id e).symm.trans h.fresh

theorem not_holds (w : f.Wired) : ¬ f.Holds id q := by
  intro hq
  cases (w.contains_iff.mpr (w.holds_present hq)).symm.trans h.fresh

theorem not_adopted_free (w : f.Wired) : p ∉ adopted := by
  intro hp
  obtain ⟨y, hy⟩ := w.isChild_occupied (h.adopted_below p hp)
  cases hy.symm.trans h.free

/-- Nodes keep their positions. -/
theorem keeps_node (hq : f.nodes.get? q = some x) : (f.graft id parent adopted p).nodes.get? q = some x := by
  refine SortedMap.get?_insert_eq_some.mpr (.inr ⟨?_, hq⟩)
  rintro rfl
  cases h.free.symm.trans hq

theorem ne_of_node (w : f.Wired) (hq : f.nodes.get? q = some x) : x ≠ id := by
  rintro rfl
  cases (w.contains_iff.mpr ⟨q, hq⟩).symm.trans h.fresh

theorem holds_graft (w : f.Wired) : (f.graft id parent adopted p).Holds x q ↔
    (x = id ∧ q ∈ adopted) ∨ (parent = some x ∧ q = p) ∨
      (f.Holds x q ∧ ¬(parent = some x ∧ q ∈ adopted)) := by
  rw [Holds, SortedMap.getD_eq, children_graft_get? h.parent_ne]
  by_cases hpx : parent = some x
  · have hx : x ≠ id := fun e => h.parent_ne (e ▸ hpx)
    simp only [hpx, hx, if_true, Option.getD_some, SortedSet.mem_add, SortedSet.mem_filter,
      Bool.not_eq_true', ← Bool.not_eq_true, SortedSet.contains_iff_mem, false_and, true_and,
      false_or, Holds]
  · simp only [hpx, if_false, false_and, not_false_iff, and_true, false_or]
    by_cases hx : x = id
    · subst hx
      simp only [h.not_holds w, or_false, true_and]
      cases he : adopted.isEmpty with
      | true =>
          have hn := h.not_holds (q := q) w
          have := SortedSet.isEmpty_iff.mp he q
          simpa [Holds, SortedMap.getD_eq, this] using hn
      | false => simp
    · simp [hx, Holds, SortedMap.getD_eq]

/-- What is below the new node is what it adopts. -/
theorem holds_graft_self (w : f.Wired) : (f.graft id parent adopted p).Holds id q ↔ q ∈ adopted := by
  simp [h.holds_graft w, h.parent_ne, h.not_holds w]

/-- Nodes that are not the parent keep what is below them. -/
theorem holds_graft_of_ne (w : f.Wired) (hx : x ≠ id) (hpar : parent ≠ some x) :
    (f.graft id parent adopted p).Holds x q ↔ f.Holds x q := by
  simp [h.holds_graft w, hx, hpar]

theorem roots_graft (w : f.Wired) : (f.graft id parent adopted p).roots.get? q = some y ↔
    (parent = none ∧ q = p ∧ y = id) ∨
      (f.roots.get? q = some y ∧ ¬(parent = none ∧ q ∈ adopted)) := by
  cases parent with
  | some a => simp [graft]
  | none =>
      have hfree : f.roots.get? p ≠ some y := by
        intro e
        cases ((w.roots_iff p y).mp e).1.symm.trans h.free
      simp only [graft, SortedMap.get?_insert_eq_some, SortedMap.get?_filter_eq_some,
        Bool.not_eq_true', ← Bool.not_eq_true, SortedSet.contains_iff_mem, true_and]
      by_cases hq : q = p
      · subst hq
        simp [hfree]
      · simp [hq]

/-- What is below other nodes is what was there, less what is adopted, and the new node. -/
theorem isChild_graft_of_ne (w : f.Wired) {place : Option String} (hplace : place ≠ some id) :
    (f.graft id parent adopted p).IsChild place q ↔
      (place = parent ∧ q = p) ∨ (f.IsChild place q ∧ ¬(place = parent ∧ q ∈ adopted)) := by
  cases place with
  | none =>
      simp only [IsChild, IsRoot, h.roots_graft w, eq_comm (a := none)]
      constructor
      · rintro ⟨y, ⟨hpar, hq, _⟩ | ⟨hy, hout⟩⟩
        · exact .inl ⟨hpar, hq⟩
        · exact .inr ⟨⟨y, hy⟩, hout⟩
      · rintro (⟨hpar, hq⟩ | ⟨⟨y, hy⟩, hout⟩)
        · exact ⟨id, .inl ⟨hpar, hq, rfl⟩⟩
        · exact ⟨y, .inr ⟨hy, hout⟩⟩
  | some a =>
      have ha : a ≠ id := fun e => hplace (congrArg some e)
      simp only [IsChild, h.holds_graft w, ha, false_and, false_or, eq_comm (a := some a)]

/-- A node that joins an inner node, or the roots, makes no leaf an inner node. -/
theorem isLeaf_graft_of_ne (w : f.Wired) (hpar : ∀ a, parent = some a → f.isLeaf a = false) (hx : x ≠ id) :
    (f.graft id parent adopted p).isLeaf x = f.isLeaf x := by
  by_cases hp : parent = some x
  · rw [hpar x hp]
    exact not_isLeaf_iff.mpr ⟨p, (h.holds_graft w).mpr (.inr (.inl ⟨hp, rfl⟩))⟩
  · rw [Bool.eq_iff_iff, isLeaf_iff, isLeaf_iff]
    exact forall_congr' fun q => not_congr (h.holds_graft_of_ne w hx hp)

/-- Children that are not adopted stay below the parent. -/
theorem isChild_graft (w : f.Wired) (hq : f.IsChild parent q) (hout : q ∉ adopted) :
    (f.graft id parent adopted p).IsChild parent q := by
  cases parent with
  | none =>
      obtain ⟨y, hy⟩ := hq
      exact ⟨y, (h.roots_graft w).mpr (.inr ⟨hy, fun hin => hout hin.2⟩)⟩
  | some a => exact (h.holds_graft w).mpr (.inr (.inr ⟨hq, fun hin => hout hin.2⟩))

/-- An adopted position is given up by the parent it was below. -/
theorem parent_of_adopted (w : f.Wired) (hq : q ∈ adopted) (ha : f.Holds a q) : parent = some a := by
  have hbelow := h.adopted_below q hq
  cases parent with
  | none => exact ((w.isRoot_iff.mp hbelow).2 a ha).elim
  | some b => rw [w.single b a q hbelow ha]

/-- What is adopted is below the new node alone. -/
theorem holder_adopted (w : f.Wired) (ha : (f.graft id parent adopted p).Holds a q)
    (hq : q ∈ adopted) : a = id := by
  rcases (h.holds_graft w).mp ha with ⟨ha, _⟩ | ⟨_, rfl⟩ | ⟨ha, hn⟩
  · exact ha
  · exact (h.not_adopted_free w hq).elim
  · exact (hn ⟨h.parent_of_adopted w hq ha, hq⟩).elim

theorem wired_graft (w : f.Wired) : (f.graft id parent adopted p).Wired where
  inverse x q := by
    have hfresh : f.positions.get? id = none := by simpa [contains, SortedMap.contains] using h.fresh
    rw [positions_graft, nodes_graft, SortedMap.get?_insert_eq_some, SortedMap.get?_insert_eq_some,
      w.inverse]
    have hx : x = id → f.nodes.get? q ≠ some x := by
      rintro rfl e
      cases hfresh.symm.trans ((w.inverse _ q).mpr e)
    have hq : q = p → f.nodes.get? q ≠ some x := by
      rintro rfl e
      cases h.free.symm.trans e
    tauto
  roots_iff q x := by
    have hq : f.nodes.get? q = some x → q ≠ p := by
      rintro e rfl
      cases h.free.symm.trans e
    have hp (a : String) : ¬ f.Holds a p := by
      intro ha
      obtain ⟨y, hy⟩ := w.occupied a p ha
      cases h.free.symm.trans hy
    rw [h.roots_graft w, nodes_graft, SortedMap.get?_insert_eq_some, w.roots_iff]
    simp only [h.holds_graft w, not_or, not_and]
    have hn := h.not_adopted_free w
    constructor
    · rintro (⟨rfl, rfl, rfl⟩ | ⟨⟨hx, hnone⟩, hout⟩)
      · exact ⟨.inl ⟨rfl, rfl⟩, fun b => ⟨fun _ => hn, by simp, fun hb => (hp b hb).elim⟩⟩
      · refine ⟨.inr ⟨hq hx, hx⟩, fun b => ⟨fun _ ha => ?_, fun _ => hq hx, fun hb => (hnone b hb).elim⟩⟩
        cases parent with
        | none => exact hout rfl ha
        | some a => exact hnone a (h.adopted_below q ha)
    · rintro ⟨⟨rfl, rfl⟩ | ⟨hne, hx⟩, hnone⟩
      · cases parent with
        | none => exact .inl ⟨rfl, rfl, rfl⟩
        | some a => exact ((hnone a).2.1 rfl rfl).elim
      · have ha : q ∉ adopted := (hnone id).1 rfl
        exact .inr ⟨⟨hx, fun b hb => (hnone b).2.2 hb fun _ => ha⟩, fun _ => ha⟩
  parent_present a below hb := by
    have hadd (b : String) : (∃ q, f.nodes.get? q = some b) →
        ∃ q, (f.graft id parent adopted p).nodes.get? q = some b := by
      rintro ⟨q, hq⟩
      refine ⟨q, SortedMap.get?_insert_eq_some.mpr (.inr ⟨?_, hq⟩)⟩
      rintro rfl
      cases h.free.symm.trans hq
    rw [children_graft_get? h.parent_ne] at hb
    split at hb
    next hpa => exact hadd a (w.contains_iff.mp (h.parent_present a hpa))
    split at hb
    next hid => exact ⟨p, SortedMap.get?_insert_eq_some.mpr (.inl ⟨rfl, hid.1⟩)⟩
    next => exact hadd a (w.parent_present a below hb)
  occupied a q hq := by
    rw [h.holds_graft w] at hq
    have hold (hy : ∃ y, f.nodes.get? q = some y) :
        ∃ y, (f.graft id parent adopted p).nodes.get? q = some y := by
      obtain ⟨y, hy⟩ := hy
      refine ⟨y, SortedMap.get?_insert_eq_some.mpr (.inr ⟨?_, hy⟩)⟩
      rintro rfl
      cases h.free.symm.trans hy
    rcases hq with ⟨_, hq⟩ | ⟨_, rfl⟩ | ⟨hq, _⟩
    · exact hold (w.isChild_occupied (h.adopted_below q hq))
    · exact ⟨id, SortedMap.get?_insert_self ..⟩
    · exact hold (w.occupied a q hq)
  single a b q ha hb := by
    by_cases hq : q ∈ adopted
    · exact (h.holder_adopted w ha hq).trans (h.holder_adopted w hb hq).symm
    · rw [h.holds_graft w] at ha hb
      have hfree (c : String) (hc : f.Holds c p) : False := by
        obtain ⟨y, hy⟩ := w.occupied c p hc
        cases h.free.symm.trans hy
      rcases ha with ⟨_, ha⟩ | ⟨ha, rfl⟩ | ⟨ha, _⟩
      · exact (hq ha).elim
      · rcases hb with ⟨_, hb⟩ | ⟨hb, _⟩ | ⟨hb, _⟩
        · exact (hq hb).elim
        · exact Option.some.inj (ha.symm.trans hb)
        · exact (hfree b hb).elim
      · rcases hb with ⟨_, hb⟩ | ⟨_, rfl⟩ | ⟨hb, _⟩
        · exact (hq hb).elim
        · exact (hfree a ha).elim
        · exact w.single a b q ha hb

theorem inhabited_graft (w : f.WellFormed) {kids : SortedSet Nat}
    (hk : (f.graft id parent adopted p).children.get? a = some kids) : ∃ q, q ∈ kids := by
  rw [children_graft_get? h.parent_ne] at hk
  split at hk
  next =>
    cases hk
    exact ⟨p, by simp⟩
  split at hk
  next hid =>
    cases hk
    exact SortedSet.isEmpty_eq_false_iff.mp hid.2
  next => exact w.inhabited a kids hk

theorem edge_graft (w : f.Wired) (hqr : f.Edge q r) (hr : ¬(f.IsChild parent r ∧ r ∈ adopted)) :
    (f.graft id parent adopted p).Edge q r := by
  obtain ⟨a, ha, har⟩ := hqr
  refine ⟨a, SortedMap.get?_insert_eq_some.mpr (.inr ⟨?_, ha⟩),
    (h.holds_graft w).mpr (.inr (.inr ⟨har, ?_⟩))⟩
  · rintro rfl
    cases h.free.symm.trans ha
  · rintro ⟨rfl, hin⟩
    exact hr ⟨har, hin⟩

/-- Nodes keep a depth: those adopted are one level further down, under the new node. -/
theorem depth_graft (w : f.Wired) (hd : f.Depth q d) :
    ∃ e, (f.graft id parent adopted p).Depth q e := by
  have hadopt (r : Nat) (hr : r ∈ adopted) : (f.graft id parent adopted p).Edge p r :=
    ⟨id, SortedMap.get?_insert_self .., (h.holds_graft w).mpr (.inl ⟨rfl, hr⟩)⟩
  induction hd with
  | @root q hq =>
      by_cases hc : parent = none ∧ q ∈ adopted
      · have hp : (f.graft id parent adopted p).IsRoot p :=
          ⟨id, (h.roots_graft w).mpr (.inl ⟨hc.1, rfl, rfl⟩)⟩
        exact ⟨1, (Depth.root hp).child (hadopt q hc.2)⟩
      · obtain ⟨y, hy⟩ := hq
        exact ⟨0, .root ⟨y, (h.roots_graft w).mpr (.inr ⟨hy, hc⟩)⟩⟩
  | @child r q d hr he ih =>
      obtain ⟨e, hre⟩ := ih
      by_cases hq : q ∈ adopted
      · obtain ⟨a, ha, haq⟩ := he
        -- the parent that gave `q` up has the new node below it instead
        have hpa : parent = some a := h.parent_of_adopted w hq haq
        have hne : r ≠ p := by
          rintro rfl
          cases h.free.symm.trans ha
        have hrp : (f.graft id parent adopted p).Edge r p :=
          ⟨a, SortedMap.get?_insert_eq_some.mpr (.inr ⟨hne, ha⟩),
            (h.holds_graft w).mpr (.inr (.inl ⟨hpa, rfl⟩))⟩
        exact ⟨e + 2, (hre.child hrp).child (hadopt q hq)⟩
      · exact ⟨e + 1, hre.child (h.edge_graft w he fun hc => hq hc.2)⟩

theorem wellFormed_graft (w : f.WellFormed) : (f.graft id parent adopted p).WellFormed := by
  refine ⟨h.wired_graft w.toWired, (h.wired_graft w.toWired).rooted fun q y hq => ?_,
    fun _ _ => h.inhabited_graft w⟩
  rcases SortedMap.get?_insert_eq_some.mp hq with ⟨rfl, rfl⟩ | ⟨_, hq⟩
  · cases hpar : parent with
    | none =>
        subst hpar
        exact ⟨0, .root ⟨y, (h.roots_graft w.toWired).mpr (.inl ⟨rfl, rfl, rfl⟩)⟩⟩
    | some a =>
        subst hpar
        obtain ⟨r, hr⟩ := w.contains_iff.mp (h.parent_present a rfl)
        obtain ⟨d, hd⟩ := w.rooted.depth hr
        obtain ⟨e, he⟩ := h.depth_graft w.toWired hd
        have hne : r ≠ q := by
          rintro rfl
          cases h.free.symm.trans hr
        exact ⟨e + 1, he.child ⟨a, SortedMap.get?_insert_eq_some.mpr (.inr ⟨hne, hr⟩),
          (h.holds_graft w.toWired).mpr (.inr (.inl ⟨rfl, rfl⟩))⟩⟩
  · obtain ⟨d, hd⟩ := w.rooted.depth hq
    exact h.depth_graft w.toWired hd

end Graftable

end CorpusIndex.Forest
