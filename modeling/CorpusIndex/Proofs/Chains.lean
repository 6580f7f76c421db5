import CorpusIndex.Proofs.NodeStore
import Mathlib.Data.Finset.Card

/-!
# Chains of links

Links lead from node to node through a store, whatever they are: back to a node, into a chain from the side,
to an id that is not stored. A store is finite, so a walk along them ends or comes back. The place of a node in
its chain is the number of links up to the end, and it is refused exactly where the links come back; the bound
on its steps is never what decides.
-/
namespace CorpusIndex.NodeStore

variable {s : NodeStore} {step : Node → Option String} {n m x y : Node} {id start : String} {i j k fuel : ℕ}
  {left : SortedSet String} {f : Failure}

/-- The stored node that the link of a node leads to. -/
def target (s : NodeStore) (step : Node → Option String) (n : Node) : Option Node :=
  (step n).bind s.nodes.get?

/-- The node that `k` links lead to, one after another. -/
def along (s : NodeStore) (step : Node → Option String) (n : Node) : ℕ → Option Node
  | 0 => some n
  | k + 1 => (s.along step n k).bind (s.target step)

/-- After `k` links there is none, or its target is missing. -/
def EndsAfter (s : NodeStore) (step : Node → Option String) (n : Node) (k : ℕ) : Prop :=
  ∃ x, s.along step n k = some x ∧ s.target step x = none

/-- The links lead to a node twice. -/
def Revisits (s : NodeStore) (step : Node → Option String) (n : Node) : Prop :=
  ∃ i j x, i < j ∧ s.along step n i = some x ∧ s.along step n j = some x

/-- A link is to be followed from a node that one was followed from before, told by its id. The ids in `left`
count as such. -/
def Returns (s : NodeStore) (step : Node → Option String) (left : SortedSet String) (n : Node) : Prop :=
  ∃ j y, s.along step n j = some y ∧ (step y).isSome = true ∧
    (y.id ∈ left ∨ ∃ i x, i < j ∧ s.along step n i = some x ∧ x.id = y.id)

/-! ### Steps -/

theorem target_eq_some : s.target step n = some m ↔ ∃ id, step n = some id ∧ s.nodes.get? id = some m :=
  Option.bind_eq_some_iff

theorem link_of_target (h : s.target step n = some m) : (step n).isSome = true := by
  obtain ⟨id, hid, _⟩ := target_eq_some.mp h
  rw [hid]
  rfl

theorem along_succ (h : s.target step n = some m) (k : ℕ) : s.along step n (k + 1) = s.along step m k := by
  induction k with
  | zero => exact h
  | succ k ih =>
      rw [along, ih]
      rfl

theorem along_succ_of_end (h : s.target step n = none) (k : ℕ) : s.along step n (k + 1) = none := by
  induction k with
  | zero => exact h
  | succ k ih =>
      rw [along, ih]
      rfl

/-- The first of several links leads to a node, and the others on from there. -/
theorem along_succ_eq_some :
    s.along step n (k + 1) = some x ↔ ∃ m, s.target step n = some m ∧ s.along step m k = some x := by
  cases h : s.target step n with
  | none => simp [along_succ_of_end h]
  | some m => simp [along_succ h]

theorem along_of_le (hij : i ≤ j) (h : (s.along step n j).isSome = true) :
    (s.along step n i).isSome = true := by
  induction hij with
  | refl => exact h
  | @step j hij ih =>
      apply ih
      obtain ⟨y, hy⟩ := Option.isSome_iff_exists.mp h
      obtain ⟨x, hx, _⟩ := Option.bind_eq_some_iff.mp hy
      rw [hx]
      rfl

/-- From a node that is not the last a link was followed. -/
theorem link_of_lt (hij : i < j) (hx : s.along step n i = some x) (h : (s.along step n j).isSome = true) :
    (step x).isSome = true := by
  obtain ⟨y, hy⟩ := Option.isSome_iff_exists.mp (along_of_le hij h)
  rw [along, hx] at hy
  exact link_of_target hy

theorem stored_of_along (hn : s.nodes.get? id = some n) (h : s.along step n k = some x) :
    ∃ i, s.nodes.get? i = some x := by
  cases k with
  | zero =>
      cases h
      exact ⟨id, hn⟩
  | succ k =>
      obtain ⟨y, _, hy⟩ := Option.bind_eq_some_iff.mp h
      obtain ⟨i, _, hi⟩ := target_eq_some.mp hy
      exact ⟨i, hi⟩

/-! ### The end of the links -/

theorem EndsAfter.le (h : s.EndsAfter step n k) (hj : (s.along step n j).isSome = true) : j ≤ k := by
  obtain ⟨x, hx, hend⟩ := h
  by_contra hlt
  have hnext := along_of_le (Nat.lt_of_not_le hlt) hj
  rw [along, hx, Option.bind_some, hend] at hnext
  cases hnext

theorem EndsAfter.unique (h : s.EndsAfter step n j) (h' : s.EndsAfter step n k) : j = k := by
  have hj : (s.along step n j).isSome = true := Option.isSome_iff_exists.mpr (h.imp fun _ hx => hx.1)
  have hk : (s.along step n k).isSome = true := Option.isSome_iff_exists.mpr (h'.imp fun _ hx => hx.1)
  exact Nat.le_antisymm (h'.le hj) (h.le hk)

theorem endsAfter_zero (h : s.target step n = none) : s.EndsAfter step n 0 := ⟨n, rfl, h⟩

theorem EndsAfter.succ (h : s.target step n = some m) (hm : s.EndsAfter step m k) :
    s.EndsAfter step n (k + 1) := by
  obtain ⟨x, hx, hend⟩ := hm
  exact ⟨x, (along_succ h k).trans hx, hend⟩

/-! ### Coming back -/

/-- The node itself was left before, or the links come back further on. -/
theorem returns_iff : s.Returns step left n ↔ ((step n).isSome = true ∧ n.id ∈ left) ∨
    ∃ m, s.target step n = some m ∧ s.Returns step (left.add n.id) m := by
  constructor
  · rintro ⟨j, y, hy, hlink, hbefore⟩
    cases j with
    | zero =>
        cases hy
        apply Or.inl
        refine ⟨hlink, hbefore.resolve_right ?_⟩
        rintro ⟨i, _, hi, _⟩
        omega
    | succ j =>
        obtain ⟨m, hm, hy⟩ := along_succ_eq_some.mp hy
        refine .inr ⟨m, hm, j, y, hy, hlink, ?_⟩
        rcases hbefore with hin | ⟨i, x, hi, hx, hid⟩
        · exact .inl (SortedSet.mem_add.mpr (.inr hin))
        · cases i with
          | zero =>
              cases hx
              exact .inl (SortedSet.mem_add.mpr (.inl hid.symm))
          | succ i => exact .inr ⟨i, x, by omega, (along_succ hm i).symm.trans hx, hid⟩
  · rintro (⟨hlink, hin⟩ | ⟨m, hm, j, y, hy, hlink, hbefore⟩)
    · exact ⟨0, n, rfl, hlink, .inl hin⟩
    · refine ⟨j + 1, y, (along_succ hm j).trans hy, hlink, ?_⟩
      rcases hbefore with hin | ⟨i, x, hi, hx, hid⟩
      · rcases SortedSet.mem_add.mp hin with hid | hin
        · exact .inr ⟨0, n, by omega, rfl, hid.symm⟩
        · exact .inl hin
      · exact .inr ⟨i + 1, x, by omega, (along_succ hm i).trans hx, hid⟩

theorem Revisits.returns (h : s.Revisits step n) (left : SortedSet String) : s.Returns step left n := by
  -- the node that comes again has a link, for one was followed from it the first time
  obtain ⟨i, j, x, hij, hx, hy⟩ := h
  have hlink : (step x).isSome = true := link_of_lt hij hx (by rw [hy]; rfl)
  exact ⟨j, x, hy, hlink, .inr ⟨i, x, hij, hx, rfl⟩⟩

/-- Where nodes are stored under their own ids, to come back to an id is to come back to its node. -/
theorem Keyed.returns_iff (hs : s.Keyed) (hn : s.nodes.get? id = some n) :
    s.Returns step ∅ n ↔ s.Revisits step n := by
  constructor
  · rintro ⟨j, y, hy, _, hin | ⟨i, x, hij, hx, hid⟩⟩
    · exact (SortedSet.not_mem_empty _ hin).elim
    · have hnode {z : Node} {k : ℕ} (hz : s.along step n k = some z) : s.nodes.get? z.id = some z := by
        obtain ⟨l, hl⟩ := stored_of_along hn hz
        rw [hs l z hl, hl]
      have hsame : x = y := Option.some.inj ((hnode hx).symm.trans (hid ▸ hnode hy))
      exact ⟨i, j, x, hij, hx, hsame ▸ hy⟩
  · exact fun h => h.returns ∅

/-- As many links as there are nodes lead to one of them twice. -/
theorem revisits_of_long (hn : s.nodes.get? id = some n)
    (h : (s.along step n s.size).isSome = true) : s.Revisits step n := by
  have hstored : ∀ k ∈ Finset.range (s.size + 1),
      s.along step n k ∈ (s.nodes.values.map some).toFinset := by
    intro k hk
    obtain ⟨x, hx⟩ := Option.isSome_iff_exists.mp (along_of_le (Nat.le_of_lt_succ (Finset.mem_range.mp hk)) h)
    rw [hx, List.mem_toFinset]
    exact List.mem_map_of_mem (SortedMap.mem_values.mpr (stored_of_along hn hx))
  have hfew : (s.nodes.values.map some).toFinset.card < (Finset.range (s.size + 1)).card := by
    have hle := List.toFinset_card_le (s.nodes.values.map some)
    rw [Finset.card_range]
    simp only [List.length_map, SortedMap.values, NodeStore.size, SortedMap.size] at hle ⊢
    omega
  obtain ⟨i, hi, j, hj, hne, heq⟩ := Finset.exists_ne_map_eq_of_card_lt_of_maps_to hfew hstored
  have hat {k : ℕ} (hk : k ∈ Finset.range (s.size + 1)) : ∃ x, s.along step n k = some x :=
    Option.isSome_iff_exists.mp (along_of_le (Nat.le_of_lt_succ (Finset.mem_range.mp hk)) h)
  rcases Nat.lt_or_gt_of_ne hne with hij | hji
  · obtain ⟨x, hx⟩ := hat hi
    exact ⟨i, j, x, hij, hx, heq ▸ hx⟩
  · obtain ⟨x, hx⟩ := hat hj
    exact ⟨j, i, x, hji, hx, heq.trans hx⟩

/-! ### Places in chains -/

theorem stepsBack_of_left (hlink : n.previous?.isSome = true) (hin : n.id ∈ left) :
    s.stepsBack start (fuel + 1) left n = .error (.corrupt (.linkCycle start)) := by
  obtain ⟨p, hp⟩ := Option.isSome_iff_exists.mp hlink
  simp only [stepsBack, hp, SortedSet.contains_iff_mem.mpr hin, if_true]

theorem stepsBack_of_end (hend : s.target Node.previous? n = none)
    (hnew : ¬ (n.previous?.isSome = true ∧ n.id ∈ left)) :
    s.stepsBack start (fuel + 1) left n = .ok 0 := by
  unfold stepsBack
  unfold target at hend
  cases hp : n.previous? with
  | none => rfl
  | some p =>
      have hleft : left.contains n.id = false := by
        rw [← Bool.not_eq_true, SortedSet.contains_iff_mem]
        intro hin
        exact hnew ⟨by rw [hp]; rfl, hin⟩
      rw [hp, Option.bind_some] at hend
      simp only [hleft, hend, Bool.false_eq_true, if_false]

theorem stepsBack_of_target (hm : s.target Node.previous? n = some m) (hnew : n.id ∉ left) :
    s.stepsBack start (fuel + 1) left n = (· + 1) <$> s.stepsBack start fuel (left.add n.id) m := by
  obtain ⟨p, hp, hget⟩ := target_eq_some.mp hm
  have hleft : left.contains n.id = false := by
    rw [← Bool.not_eq_true, SortedSet.contains_iff_mem]
    exact hnew
  simp only [stepsBack, hp, hleft, hget, Bool.false_eq_true, if_false]

/-- What the steps back answer: where the links end, or that they come back to a node in `left` or to one
met since. The fuel runs out only along as many links. -/
theorem stepsBack_spec (s : NodeStore) (start : String) (fuel : ℕ) (left : SortedSet String) (n : Node) :
    match s.stepsBack start fuel left n with
    | .ok k => ¬ s.Returns Node.previous? left n ∧ s.EndsAfter Node.previous? n k
    | .error f => f = .corrupt (.linkCycle start) ∧
        (s.Returns Node.previous? left n ∨ (s.along Node.previous? n fuel).isSome = true) := by
  induction fuel generalizing left n with
  | zero => exact ⟨rfl, .inr rfl⟩
  | succ fuel ih =>
      rw [returns_iff]
      by_cases hleft : n.previous?.isSome = true ∧ n.id ∈ left
      · rw [stepsBack_of_left hleft.1 hleft.2]
        exact ⟨rfl, .inl (.inl hleft)⟩
      · cases hm : s.target Node.previous? n with
        | none =>
            rw [stepsBack_of_end hm hleft]
            exact ⟨by simp [hleft], endsAfter_zero hm⟩
        | some m =>
            have hnew : n.id ∉ left := fun hin => hleft ⟨link_of_target hm, hin⟩
            have hrest := ih (left.add n.id) m
            rw [stepsBack_of_target hm hnew]
            cases hsteps : s.stepsBack start fuel (left.add n.id) m with
            | ok k =>
                rw [hsteps] at hrest
                exact ⟨by simpa [hleft] using hrest.1, hrest.2.succ hm⟩
            | error f =>
                rw [hsteps] at hrest
                refine ⟨hrest.1, hrest.2.imp (fun hback => .inr ⟨m, rfl, hback⟩) fun hlong => ?_⟩
                rwa [along_succ hm]

/-- The place of a stored node is where its previous links end, unless they come back. -/
theorem chainPosition_spec (hn : s.nodes.get? id = some n) :
    match s.chainPosition id with
    | .ok k => ¬ s.Returns Node.previous? ∅ n ∧ s.EndsAfter Node.previous? n k
    | .error f => f = .corrupt (.linkCycle id) ∧ s.Returns Node.previous? ∅ n := by
  have hspec := stepsBack_spec s id (s.size + 2) ∅ n
  rw [chainPosition, node_eq_ok.mpr hn, ok_bind]
  cases hsteps : s.stepsBack id (s.size + 2) ∅ n with
  | ok k =>
      rw [hsteps] at hspec
      exact hspec
  | error f =>
      rw [hsteps] at hspec
      refine ⟨hspec.1, hspec.2.elim (fun hback => hback) fun hlong => ?_⟩
      exact (revisits_of_long hn (along_of_le (by omega) hlong)).returns ∅

theorem chainPosition_eq_ok_iff (hn : s.nodes.get? id = some n) :
    s.chainPosition id = .ok k ↔ ¬ s.Returns Node.previous? ∅ n ∧ s.EndsAfter Node.previous? n k := by
  have hspec := chainPosition_spec hn
  constructor
  · intro h
    rw [h] at hspec
    exact hspec
  · rintro ⟨hon, hend⟩
    cases h : s.chainPosition id with
    | ok j =>
        rw [h] at hspec
        rw [hspec.2.unique hend]
    | error f =>
        rw [h] at hspec
        exact (hon hspec.2).elim

theorem chainPosition_eq_error_iff (hn : s.nodes.get? id = some n) :
    s.chainPosition id = .error f ↔ f = .corrupt (.linkCycle id) ∧ s.Returns Node.previous? ∅ n := by
  have hspec := chainPosition_spec hn
  constructor
  · intro h
    rw [h] at hspec
    exact hspec
  · rintro ⟨rfl, hback⟩
    cases h : s.chainPosition id with
    | ok k =>
        rw [h] at hspec
        exact (hspec.1 hback).elim
    | error f =>
        rw [h] at hspec
        rw [hspec.1]

/-- A place counts other stored nodes. -/
theorem lt_size_of_chainPosition (hn : s.nodes.get? id = some n) (h : s.chainPosition id = .ok k) :
    k < s.size := by
  obtain ⟨hon, hend⟩ := (chainPosition_eq_ok_iff hn).mp h
  by_contra hge
  apply hon
  apply Revisits.returns
  apply revisits_of_long hn
  apply along_of_le (Nat.le_of_not_lt hge)
  obtain ⟨x, hx, _⟩ := hend
  rw [hx]
  rfl

end CorpusIndex.NodeStore
