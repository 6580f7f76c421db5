/-!
# Cutting a list into groups of equal length

Every group but the last has the given length, the last has what is left. No group is empty, and together
they are the list (`flatten_groups`).
-/
namespace CorpusIndex

/-- Consecutive groups of `n`; a length of zero counts as one. -/
def groups (n : Nat) (l : List α) : List (List α) :=
  if _h : l = [] then [] else
    l.take (max n 1) :: groups n (l.drop (max n 1))
termination_by l.length
decreasing_by
  have := List.length_pos_iff.2 _h
  simp only [List.length_drop]
  omega

@[simp] theorem groups_nil (n : Nat) : groups n ([] : List α) = [] := by
  unfold groups; simp

/-- Nothing is lost and the order is kept. -/
theorem flatten_groups (n : Nat) (l : List α) : (groups n l).flatten = l := by
  fun_induction groups n l with
  | case1 => rfl
  | case2 l _ ih => rw [List.flatten_cons, ih, List.take_append_drop]

theorem ne_nil_of_mem_groups {n : Nat} {l g : List α} (h : g ∈ groups n l) : g ≠ [] := by
  fun_induction groups n l with
  | case1 => cases h
  | case2 l hl ih =>
      rcases List.mem_cons.mp h with rfl | h
      · have : 0 < l.length := List.length_pos_iff.mpr hl
        rw [← List.length_pos_iff, List.length_take]
        omega
      · exact ih h

theorem length_of_mem_groups {n : Nat} {l g : List α} (h : g ∈ groups n l) : g.length ≤ max n 1 := by
  fun_induction groups n l with
  | case1 => cases h
  | case2 l hl ih =>
      rcases List.mem_cons.mp h with rfl | h
      · rw [List.length_take]
        exact Nat.min_le_left ..
      · exact ih h

/-- Groups of two or more are at most half as many as what is grouped, rounded up. -/
theorem length_groups_le {n : Nat} (h : 2 ≤ n) (l : List α) : 2 * (groups n l).length ≤ l.length + 1 := by
  fun_induction groups n l with
  | case1 => simp
  | case2 l hl ih =>
      have : 0 < l.length := List.length_pos_iff.mpr hl
      rw [List.length_drop] at ih
      rw [List.length_cons]
      omega

end CorpusIndex
