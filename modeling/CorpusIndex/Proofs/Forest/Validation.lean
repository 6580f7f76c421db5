import CorpusIndex.Proofs.Except
import CorpusIndex.Proofs.Forest.WellFormed

/-!
# The check of a forest, step by step

The local checks are conditions on single nodes and links. The walk from the roots is followed for any
forest that has no position below two nodes and no root below a node (`Treelike`): a position on the stack
is a root or has its only parent behind it, so nothing is met twice and the walk ends with everything that
lies below a root (`Treelike.reach_eq_ok`).
-/
namespace CorpusIndex.Forest
open Relation

variable {f : Forest} {a b id : String} {c p q r x : Nat} {reached : SortedSet Nat} {stack : List Nat}

/-! ### Links -/

/-- Every recorded set of children is under the id of a node and holds positions of nodes. -/
theorem checkChildren_eq_ok : f.checkChildren = .ok () ↔
    (∀ a below, f.children.get? a = some below → f.contains a = true) ∧
      ∀ a p, f.Holds a p → ∃ id, f.nodes.get? p = some id := by
  have hset (below : SortedSet Nat) (e : Nat → Failure) :
      (below.elems.forM fun c => if f.nodes.contains c then .ok () else .error (e c) :
        Except Failure Unit) = .ok () ↔ ∀ c ∈ below, ∃ id, f.nodes.get? c = some id := by
    simp only [forM_eq_ok_iff, SortedSet.mem_elems, ← SortedMap.contains_iff]
    refine forall₂_congr fun c _ => ?_
    split <;> simp_all
  rw [checkChildren, forM_eq_ok_iff]
  constructor
  · intro h
    have hentry (a : String) (below : SortedSet Nat) (hget : f.children.get? a = some below) :
        f.contains a = true ∧ ∀ c ∈ below, ∃ id, f.nodes.get? c = some id := by
      have hentry := h (a, below) (SortedMap.get?_eq_some_iff.mp hget)
      dsimp only at hentry
      split at hentry
      next ha => exact ⟨ha, (hset below _).mp hentry⟩
      next => cases hentry
    constructor
    · intro a below hget
      exact (hentry a below hget).1
    · intro a p hp
      obtain ⟨below, hget, hin⟩ := holds_iff.mp hp
      exact (hentry a below hget).2 p hin
  · intro hsound e he
    obtain ⟨hpar, hocc⟩ := hsound
    have hget : f.children.get? e.1 = some e.2 := SortedMap.get?_eq_some_iff.mpr he
    have hpar : f.positions.contains e.1 = true := hpar e.1 e.2 hget
    simp only [hpar, if_true]
    apply (hset e.2 _).mpr
    intro c hc
    exact hocc e.1 c (holds_iff.mpr ⟨e.2, hget, hc⟩)

/-- The recorded sets of children that hold a position. -/
def holders (f : Forest) (p : Nat) : List (String × SortedSet Nat) :=
  f.children.toList.filter (fun e => e.2.contains p)

theorem parentCount_eq_length : f.parentCount p = (f.holders p).length := by
  rw [parentCount, holders, SortedMap.values, SortedMap.toList, List.filter_map, List.length_map]
  rfl

theorem holds_iff_holders : f.Holds a p ↔ ∃ below, (a, below) ∈ f.holders p := by
  rw [holds_iff]
  refine exists_congr fun below => ?_
  rw [holders, List.mem_filter, ← SortedMap.get?_eq_some_iff]
  rfl

theorem parentCount_eq_zero : f.parentCount p = 0 ↔ ∀ a, ¬ f.Holds a p := by
  rw [parentCount_eq_length, List.length_eq_zero_iff, List.eq_nil_iff_forall_not_mem]
  constructor
  · intro h a ha
    obtain ⟨below, hin⟩ := holds_iff_holders.mp ha
    exact h (a, below) hin
  · intro h e he
    exact h e.1 (holds_iff_holders.mpr ⟨e.2, he⟩)

theorem parentCount_le_one : f.parentCount p ≤ 1 ↔ ∀ a b, f.Holds a p → f.Holds b p → a = b := by
  have hsorted : (f.holders p).Pairwise fun a b => compare a.1 b.1 = .lt :=
    f.children.sorted.sublist List.filter_sublist
  rw [parentCount_eq_length]
  constructor
  · intro h a b ha hb
    obtain ⟨below, ha⟩ := holds_iff_holders.mp ha
    obtain ⟨below', hb⟩ := holds_iff_holders.mp hb
    cases hl : f.holders p with
    | nil => simp [hl] at ha
    | cons e rest =>
        have hrest : rest = [] := by
          rw [hl, List.length_cons] at h
          exact List.eq_nil_of_length_eq_zero (by omega)
        rw [hl, hrest, List.mem_singleton] at ha hb
        exact congrArg Prod.fst (ha.trans hb.symm)
  · intro h
    cases hl : f.holders p with
    | nil => simp
    | cons e rest =>
        cases rest with
        | nil => simp
        | cons d rest =>
            -- keys increase along the list, but both sets hold the position
            have hheld (e : String × SortedSet Nat) (he : e ∈ f.holders p) : f.Holds e.1 p :=
              holds_iff_holders.mpr ⟨e.2, he⟩
            have hed := h e.1 d.1 (hheld e (by simp [hl])) (hheld d (by simp [hl]))
            rw [hl] at hsorted
            have hlt := (List.pairwise_cons.mp hsorted).1 d (by simp)
            simp [hed, Std.compare_self] at hlt

/-- Every node is found under its id, has at most one parent and is a root if it has none. -/
theorem checkNodes_eq_ok : f.checkNodes = .ok () ↔ ∀ p id, f.nodes.get? p = some id →
    f.positions.get? id = some p ∧ (∀ a b, f.Holds a p → f.Holds b p → a = b) ∧
      (f.IsRoot p ↔ ∀ a, ¬ f.Holds a p) := by
  have hroot (p : Nat) : (f.parentCount p == 0) = f.roots.contains p ↔
      (f.IsRoot p ↔ ∀ a, ¬ f.Holds a p) := by
    rw [isRoot_iff_contains, ← parentCount_eq_zero, Bool.eq_iff_iff, beq_iff_eq]
    exact Iff.comm
  rw [checkNodes, forM_eq_ok_iff]
  constructor
  · intro h p id hp
    have hnode := h (p, id) (SortedMap.get?_eq_some_iff.mp hp)
    dsimp only at hnode
    split at hnode
    next => cases hnode
    next hpos =>
      split at hnode
      next => cases hnode
      next hcount =>
        split at hnode
        next => cases hnode
        next heq =>
          exact ⟨not_not.mp hpos, parentCount_le_one.mp (by omega), (hroot p).mp (not_not.mp heq)⟩
  · intro h e he
    obtain ⟨hpos, hone, hiff⟩ := h e.1 e.2 (SortedMap.get?_eq_some_iff.mpr he)
    have hcount := parentCount_le_one.mpr hone
    have heq := (hroot e.1).mpr hiff
    simp [hpos, heq, Nat.not_lt.mpr hcount]

/-! ### The walk from the roots -/

/-- `x` is the node at `p` or lies below it. -/
def Below (f : Forest) (p x : Nat) : Prop := ReflTransGen f.Edge p x

/-- The position is a root or lies below one. -/
def Met (f : Forest) (x : Nat) : Prop := ∃ r, f.IsRoot r ∧ f.Below r x

/-- No position is below two nodes, and no root is below a node. -/
structure Treelike (f : Forest) : Prop where
  edge_unique : ∀ q r p, f.Edge q p → f.Edge r p → q = r
  not_edge_root : ∀ q p, f.IsRoot p → ¬ f.Edge q p

/-- Positions the walk enters from `p`. -/
theorem mem_childrenAt : c ∈ ((f.nodes.get? p).bind f.children.get?).getD ∅ ↔ f.Edge p c := by
  unfold Edge
  cases f.nodes.get? p with
  | none => simp
  | some id => simp [Holds, SortedMap.getD_eq]

/-- Of two nodes above a third, one is above the other. -/
theorem Wired.below_total (w : f.Wired) (hp : f.Below p x) (hq : f.Below q x) :
    f.Below p q ∨ f.Below q p := by
  have hunique : Relator.RightUnique (Function.swap f.Edge) := fun _ _ _ hb hc => w.edge_unique hb hc
  rcases ReflTransGen.total_of_right_unique hunique (reflTransGen_swap.mpr hp)
    (reflTransGen_swap.mpr hq) with h | h
  · exact .inr (reflTransGen_swap.mp h)
  · exact .inl (reflTransGen_swap.mp h)

theorem Met.child (h : f.Met p) (hc : f.Edge p c) : f.Met c := by
  obtain ⟨r, hr, hp⟩ := h
  exact ⟨r, hr, hp.tail hc⟩

/-- A bound on the positions that are roots or below a node. -/
def linkCount (f : Forest) : Nat := f.roots.size + (f.children.values.flatMap (·.elems)).length

/-- What the walk keeps to. A position that is met or waits is a root or below one that is met, and every
root and every child of a position met is met or waits; none waits twice or after it is met, and there are
more steps left than positions to meet. -/
structure Frontier (f : Forest) (fuel : Nat) (reached : SortedSet Nat) (stack : List Nat) : Prop where
  sound : ∀ x, x ∈ reached ∨ x ∈ stack → f.Met x
  entered : ∀ x, x ∈ reached ∨ x ∈ stack → f.IsRoot x ∨ ∃ q ∈ reached, f.Edge q x
  roots : ∀ r, f.IsRoot r → r ∈ reached ∨ r ∈ stack
  closed : ∀ q ∈ reached, ∀ c, f.Edge q c → c ∈ reached ∨ c ∈ stack
  ahead : ∀ q ∈ stack, q ∉ reached
  once : stack.Nodup
  enough : f.linkCount < fuel + reached.size

theorem Frontier.size_reached_le {fuel : Nat} (h : f.Frontier fuel reached stack) :
    reached.size ≤ f.linkCount := by
  have hsub : reached.elems ⊆ f.roots.keys ++ f.children.values.flatMap (·.elems) := by
    intro x hx
    rw [List.mem_append]
    rcases h.entered x (.inl (SortedSet.mem_elems.mp hx)) with ⟨id, hid⟩ | ⟨q, _, a, _, ha⟩
    · exact .inl (SortedMap.mem_keys.mpr ⟨id, hid⟩)
    · obtain ⟨below, hget, hin⟩ := holds_iff.mp ha
      refine .inr (List.mem_flatMap.mpr ⟨below, SortedMap.mem_values.mpr ⟨a, hget⟩, ?_⟩)
      exact SortedSet.mem_elems.mpr hin
  have hle := ((SortedSet.elems_nodup reached).subperm hsub).length_le
  have hroots : f.roots.keys.length = f.roots.size := by simp [SortedMap.keys, SortedMap.size]
  rw [List.length_append, hroots] at hle
  rwa [SortedSet.size_eq_length]

/-- Entering the node on top of the stack. -/
theorem Frontier.step {fuel : Nat} (t : f.Treelike) (h : f.Frontier (fuel + 1) reached (p :: stack)) :
    f.Frontier fuel (reached.add p)
      ((((f.nodes.get? p).bind f.children.get?).getD ∅).elems.reverse ++ stack) := by
  have hmem (c : Nat) : c ∈ (((f.nodes.get? p).bind f.children.get?).getD ∅).elems.reverse ↔
      f.Edge p c := by
    rw [List.mem_reverse, SortedSet.mem_elems, mem_childrenAt]
  have hnew : p ∉ reached := h.ahead p List.mem_cons_self
  obtain ⟨hp, honce⟩ := List.nodup_cons.mp h.once
  have hwaits {x : Nat} (hx : x ∈ stack) : x ∈ reached ∨ x ∈ p :: stack :=
    .inr (List.mem_cons_of_mem p hx)
  -- a child of the node has no other parent, so nothing led to it before
  have hfirst (c : Nat) (hc : f.Edge p c) : ¬(c ∈ reached ∨ c ∈ p :: stack) := by
    intro hin
    rcases h.entered c hin with hroot | ⟨q, hq, hqc⟩
    · exact t.not_edge_root p c hroot hc
    · exact hnew (t.edge_unique q p c hqc hc ▸ hq)
  have hall (x : Nat) : x ∈ reached.add p ∨
      x ∈ (((f.nodes.get? p).bind f.children.get?).getD ∅).elems.reverse ++ stack ↔
        (x ∈ reached ∨ x ∈ p :: stack) ∨ f.Edge p x := by
    rw [SortedSet.mem_add, List.mem_append, hmem, List.mem_cons]
    tauto
  exact {
    sound := by
      intro x hx
      rcases (hall x).mp hx with hx | hx
      · exact h.sound x hx
      · exact (h.sound p (.inr List.mem_cons_self)).child hx
    entered := by
      intro x hx
      rcases (hall x).mp hx with hx | hx
      · apply (h.entered x hx).imp_right
        intro ⟨q, hq, hqx⟩
        exact ⟨q, SortedSet.mem_add.mpr (.inr hq), hqx⟩
      · exact .inr ⟨p, SortedSet.mem_add.mpr (.inl rfl), hx⟩
    roots := by
      intro r hr
      exact (hall r).mpr (.inl (h.roots r hr))
    closed := by
      intro q hq c hc
      apply (hall c).mpr
      rcases SortedSet.mem_add.mp hq with rfl | hq
      · exact .inr hc
      · exact .inl (h.closed q hq c hc)
    ahead := by
      intro x hx
      rw [SortedSet.mem_add, not_or]
      rcases List.mem_append.mp hx with hc | hin
      · have hout := hfirst x ((hmem x).mp hc)
        rw [not_or, List.mem_cons, not_or] at hout
        exact ⟨hout.2.1, hout.1⟩
      · exact ⟨fun e => hp (e ▸ hin), h.ahead x (List.mem_cons_of_mem p hin)⟩
    once := by
      apply List.nodup_append'.mpr
      refine ⟨List.nodup_reverse.mpr (SortedSet.elems_nodup _), honce, ?_⟩
      intro x hx hx'
      exact hfirst x ((hmem x).mp hx) (hwaits hx')
    enough := by
      have henough := h.enough
      rw [SortedSet.size_add hnew]
      omega }

/-- The walk ends with all that lies below the roots, and meets nothing twice. -/
theorem Frontier.reach_eq_ok {fuel : Nat} (t : f.Treelike) (h : f.Frontier fuel reached stack) :
    ∃ all, f.reach fuel reached stack = .ok all ∧ ∀ x, x ∈ all ↔ f.Met x := by
  induction fuel generalizing reached stack with
  | zero =>
      have hle := h.size_reached_le
      have henough := h.enough
      omega
  | succ fuel ih =>
      cases stack with
      | nil =>
          refine ⟨reached, rfl, fun x => ⟨fun hx => h.sound x (.inl hx), ?_⟩⟩
          intro ⟨r, hr, hx⟩
          induction hx with
          | refl => exact (h.roots r hr).resolve_right (List.not_mem_nil)
          | tail _ he hq => exact (h.closed _ hq _ he).resolve_right (List.not_mem_nil)
      | cons p stack =>
          obtain ⟨all, hall, hmem⟩ := ih (h.step t)
          have hnew : reached.contains p = false := by
            rw [← Bool.not_eq_true]
            exact h.ahead p List.mem_cons_self
          refine ⟨all, ?_, hmem⟩
          simpa only [reach, hnew, Bool.false_eq_true, if_false] using hall

theorem Treelike.reach_eq_ok (t : f.Treelike) :
    ∃ all, f.reach f.reachBound ∅ f.roots.keys.reverse = .ok all ∧ ∀ x, x ∈ all ↔ f.Met x := by
  have hroot (r : Nat) : r ∈ f.roots.keys.reverse ↔ f.IsRoot r := by
    rw [List.mem_reverse]
    exact SortedMap.mem_keys
  have hstart {x : Nat} (hx : x ∈ (∅ : SortedSet Nat) ∨ x ∈ f.roots.keys.reverse) : f.IsRoot x :=
    (hroot x).mp (hx.resolve_left (SortedSet.not_mem_empty x))
  have hfrontier : f.Frontier f.reachBound ∅ f.roots.keys.reverse := {
    sound := fun x hx => ⟨x, hstart hx, .refl⟩
    entered := fun x hx => .inl (hstart hx)
    roots := fun r hr => .inr ((hroot r).mpr hr)
    closed := fun q hq => (SortedSet.not_mem_empty q hq).elim
    ahead := fun q _ => SortedSet.not_mem_empty q
    once := List.nodup_reverse.mpr f.roots.keys_nodup
    enough := by
      unfold linkCount reachBound
      omega }
  exact hfrontier.reach_eq_ok t

/-- Once the links are in order, the check compares the number of positions below a root with the number
of nodes. -/
theorem Treelike.validate_eq_ok (t : f.Treelike) : f.validate = .ok () ↔
    f.checkChildren = .ok () ∧ f.checkNodes = .ok () ∧
      ∃ all : SortedSet Nat, (∀ x, x ∈ all ↔ f.Met x) ∧ all.size = f.size := by
  obtain ⟨all, hall, hmem⟩ := t.reach_eq_ok
  have hsame (all' : SortedSet Nat) (hmem' : ∀ x, x ∈ all' ↔ f.Met x) : all' = all :=
    SortedSet.ext fun x => (hmem' x).trans (hmem x).symm
  simp only [validate, bind_eq_ok, hall, Except.ok.injEq]
  constructor
  · rintro ⟨_, hchildren, _, hnodes, _, rfl, hsize⟩
    refine ⟨hchildren, hnodes, all, hmem, ?_⟩
    split at hsize
    · assumption
    · cases hsize
  · rintro ⟨hchildren, hnodes, all', hmem', hsize⟩
    cases hsame all' hmem'
    exact ⟨(), hchildren, (), hnodes, all, rfl, if_pos hsize⟩

/-! ### Well-formed forests -/

theorem Wired.treelike (w : f.Wired) : f.Treelike where
  edge_unique _ _ _ := w.edge_unique
  not_edge_root _ _ := w.not_edge_root

/-- A wired forest whose nodes all lie below a root passes the check. -/
theorem validate_of_rooted (w : f.Wired) (h : f.Rooted) : f.validate = .ok () := by
  obtain ⟨all, _, hmem⟩ := w.treelike.reach_eq_ok
  apply w.treelike.validate_eq_ok.mpr
  refine ⟨checkChildren_eq_ok.mpr ⟨?_, w.occupied⟩, checkNodes_eq_ok.mpr ?_, all, hmem, ?_⟩
  · intro a below hget
    exact w.contains_iff.mpr (w.parent_present a below hget)
  · intro p id hp
    exact ⟨(w.inverse id p).mpr hp, fun a b => w.single a b p, w.isRoot_iff.trans (and_iff_right ⟨id, hp⟩)⟩
  · apply SortedMap.size_eq_of_keys
    intro x
    rw [SortedMap.mem_keys (m := f.nodes)]
    refine SortedSet.mem_elems.trans ((hmem x).trans ⟨?_, ?_⟩)
    · intro ⟨r, hr, hx⟩
      obtain ⟨d, hd, _⟩ := (Depth.root hr).along hx
      exact w.depth_occupied hd
    · intro ⟨id, hid⟩
      obtain ⟨r, ⟨hr, hrx⟩, _⟩ := h x id hid
      exact ⟨r, hr, hrx⟩

theorem WellFormed.validate (w : f.WellFormed) : f.validate = .ok () :=
  validate_of_rooted w.toWired w.rooted

end CorpusIndex.Forest
