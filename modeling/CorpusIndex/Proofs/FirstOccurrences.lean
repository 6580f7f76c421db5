import Mathlib.Data.List.Nodup

/-!
# First occurrences

Without its repetitions a list has each of its members once, in the order in which they first occur.
-/
namespace CorpusIndex

variable {α : Type} [BEq α] [LawfulBEq α] {a : α} {l : List α} {n : Nat}

theorem eraseDups_nodup (l : List α) : l.eraseDups.Nodup := by
  match l with
  | [] => simp
  | a :: l =>
      rw [List.eraseDups_cons, List.nodup_cons]
      exact ⟨by simp, eraseDups_nodup _⟩
termination_by l.length
decreasing_by exact Nat.lt_succ_of_le (List.length_filter_le ..)

theorem eraseDups_of_nodup (h : l.Nodup) : l.eraseDups = l := by
  induction l with
  | nil => rfl
  | cons a l ih =>
      obtain ⟨hnew, h⟩ := List.nodup_cons.mp h
      have hkept : (l.filter fun b => !b == a) = l := List.filter_eq_self.mpr fun b hb => by
        simpa using ne_of_mem_of_not_mem hb hnew
      rw [List.eraseDups_cons, hkept, ih h]

theorem eraseDups_append_cons_of_mem (h : a ∈ l) (r : List α) :
    (l ++ a :: r).eraseDups = (l ++ r).eraseDups := by
  rw [List.eraseDups_append, List.eraseDups_append, List.cons_removeAll, if_neg (by simpa using h)]

theorem take_eraseDups_append (h : l.Nodup) (hn : l.length = n) (r : List α) :
    (l ++ r).eraseDups.take n = l := by
  rw [List.eraseDups_append, eraseDups_of_nodup h, List.take_left' hn]

end CorpusIndex
