import CorpusIndex.Embedding.Similarity
import Mathlib.Algebra.Order.Group.Unbundled.Int
import Mathlib.Data.List.Nodup
import Mathlib.Data.Prod.Lex
import Mathlib.Order.Compare

/-!
# Ranking by score

Scores that are numbers stand in a linear order, which the comparisons of single precision follow. Sorting
by score therefore puts numbers in descending order; among scores that are not numbers it would not.
-/
namespace CorpusIndex
open Float.Model UnpackedFloat

/-! ### The order of scores -/

/-- The place of a number: what kind it is of, then its exponent and its mantissa. -/
def standing : UnpackedFloat → ℤ ×ₗ ℤ ×ₗ ℤ
  | .infinity .negative => toLex (-2, toLex (0, 0))
  | .finite .negative m e _ => toLex (-1, toLex (-e, -m))
  | .zero _ => toLex (0, toLex (0, 0))
  | .finite .positive m e _ => toLex (1, toLex (e, m))
  | .infinity .positive => toLex (2, toLex (0, 0))
  | .notANumber => toLex (3, toLex (0, 0))

theorem compare_neg (a b : ℤ) : compare (-a) (-b) = (compare a b).swap := by
  rw [← Std.OrientedCmp.eq_swap]
  rcases lt_trichotomy b a with h | rfl | h
  · rw [compare_lt_iff_lt.mpr h, compare_lt_iff_lt.mpr (Int.neg_lt_neg h)]
  · rw [compare_eq_iff_eq.mpr rfl, compare_eq_iff_eq.mpr rfl]
  · rw [compare_gt_iff_gt.mpr h, compare_gt_iff_gt.mpr (Int.neg_lt_neg h)]

theorem compare_cast (m n : ℕ) : compare (m : ℤ) n = compare m n := by
  rcases lt_trichotomy m n with h | rfl | h
  · rw [compare_lt_iff_lt.mpr h, compare_lt_iff_lt.mpr (Int.ofNat_lt.mpr h)]
  · rw [compare_eq_iff_eq.mpr rfl, compare_eq_iff_eq.mpr rfl]
  · rw [compare_gt_iff_gt.mpr h, compare_gt_iff_gt.mpr (Int.ofNat_lt.mpr h)]

/-- Places of one kind are compared by exponent, then by mantissa. -/
theorem compare_place (k a a' b b' : ℤ) : compare (toLex (k, toLex (a, b))) (toLex (k, toLex (a', b'))) =
    (compare a a').then (compare b b') := by
  simp [Prod.Lex.compare_def, compareLex, compareOn]

theorem compare_standing {a b : UnpackedFloat} (ha : a ≠ .notANumber) (hb : b ≠ .notANumber) :
    a.compare b = some (compare (standing a) (standing b)) := by
  -- only two finite numbers of one sign need their exponents and mantissas
  rcases a with (_ | _) | _ | (_ | _) | ⟨_ | _, m, e, hm⟩ <;>
    rcases b with (_ | _) | _ | (_ | _) | ⟨_ | _, m', e', hm'⟩ <;>
    first | contradiction | rfl | skip
  · change some ((compare e e').then (compare m m')).swap =
      some (compare (toLex (-1, toLex (-e, -(m : ℤ)))) (toLex (-1, toLex (-e', -(m' : ℤ)))))
    rw [compare_place, compare_neg, compare_neg, compare_cast, Ordering.swap_then]
  · change some ((compare e e').then (compare m m')) =
      some (compare (toLex (1, toLex (e, (m : ℤ)))) (toLex (1, toLex (e', (m' : ℤ)))))
    rw [compare_place, compare_cast]

theorem compare_notANumber (a : UnpackedFloat) : a.compare .notANumber = none := by
  cases a <;> rfl

variable {a b c : Float32}

theorem isNaN_eq_false_iff : a.isNaN = false ↔ a.toModel.unpack ≠ .notANumber := by
  change a.toModel.unpack.isNaN = false ↔ _
  cases a.toModel.unpack with
  | notANumber => exact iff_of_false (by decide) (absurd rfl)
  | zero | infinity | finite => exact iff_of_true rfl (by rintro ⟨⟩)

theorem le_iff_compare : a ≤ b ↔ (a.toModel.unpack.compare b.toModel.unpack).any (·.isLE) = true :=
  decide_eq_true_iff

theorem lt_iff_compare : a < b ↔ a.toModel.unpack.compare b.toModel.unpack = some .lt :=
  decide_eq_true_iff.trans beq_iff_eq

theorem le_iff_standing (ha : a.isNaN = false) (hb : b.isNaN = false) :
    a ≤ b ↔ standing a.toModel.unpack ≤ standing b.toModel.unpack := by
  rw [le_iff_compare, compare_standing (isNaN_eq_false_iff.mp ha) (isNaN_eq_false_iff.mp hb),
    Option.any_some, Ordering.isLE_iff_ne_gt, ← not_lt]
  exact not_congr compare_gt_iff_gt

theorem lt_iff_standing (ha : a.isNaN = false) (hb : b.isNaN = false) :
    a < b ↔ standing a.toModel.unpack < standing b.toModel.unpack := by
  rw [lt_iff_compare, compare_standing (isNaN_eq_false_iff.mp ha) (isNaN_eq_false_iff.mp hb),
    Option.some.injEq, compare_lt_iff_lt]

/-- What compares is a number. -/
theorem isNaN_of_le (h : a ≤ b) : a.isNaN = false ∧ b.isNaN = false := by
  rw [le_iff_compare] at h
  rw [isNaN_eq_false_iff, isNaN_eq_false_iff]
  constructor
  · intro ha
    rw [ha] at h
    cases h
  · intro hb
    rw [hb, compare_notANumber] at h
    cases h

theorem score_le_trans (hab : a ≤ b) (hbc : b ≤ c) : a ≤ c := by
  obtain ⟨ha, hb⟩ := isNaN_of_le hab
  obtain ⟨_, hc⟩ := isNaN_of_le hbc
  rw [le_iff_standing ha hb] at hab
  rw [le_iff_standing hb hc] at hbc
  rw [le_iff_standing ha hc]
  exact hab.trans hbc

/-! ### Sorting -/

section Sorting
variable {α : Type} {le : α → α → Bool} {P : α → α → Prop} {l : List α}

/-- A list in the order `P`, sorted by `le`, is in order by `le` and then by `P`. -/
theorem pairwise_mergeSort_then (htrans : ∀ a b c, le a b → le b c → le a c)
    (htotal : ∀ a b, le a b || le b a) (h : l.Pairwise P) :
    (l.mergeSort le).Pairwise fun a b => le a b ∧ (le b a → P a b) := by
  -- the elements are sorted together with their places in the list, which are all different
  have hsorted : (l.zipIdx.mergeSort (List.zipIdxLE le)).Pairwise fun x y => List.zipIdxLE le x y :=
    List.pairwise_mergeSort (List.zipIdxLE_trans htrans) (List.zipIdxLE_total htotal) _
  have hplaces : ((l.zipIdx.mergeSort (List.zipIdxLE le)).map (·.2)).Nodup := by
    refine (((List.mergeSort_perm ..).map _).nodup_iff).mpr ?_
    rw [List.zipIdx_map_snd]
    exact List.nodup_range'
  rw [← List.mergeSort_zipIdx, List.pairwise_map]
  refine (hsorted.and (List.pairwise_map.mp hplaces)).imp_of_mem ?_
  rintro ⟨a, i⟩ ⟨b, j⟩ ha hb ⟨hle, hne⟩
  have ha : l[i]? = some a := List.mk_mem_zipIdx_iff_getElem?.mp (List.mem_mergeSort.mp ha)
  have hb : l[j]? = some b := List.mk_mem_zipIdx_iff_getElem?.mp (List.mem_mergeSort.mp hb)
  rw [List.zipIdxLE] at hle
  split at hle
  next hab =>
    refine ⟨hab, fun hba => ?_⟩
    obtain ⟨hi, rfl⟩ := List.getElem?_eq_some_iff.mp ha
    obtain ⟨hj, rfl⟩ := List.getElem?_eq_some_iff.mp hb
    rw [if_pos hba, decide_eq_true_iff] at hle
    exact List.pairwise_iff_getElem.mp h i j hi hj (lt_of_le_of_ne hle hne)
  next => cases hle

variable {cmp : α → α → Ordering} [Std.TransCmp cmp] {l' : List α}

theorem pairwise_mergeSort_isLE (l : List α) :
    (l.mergeSort fun a b => (cmp a b).isLE).Pairwise fun a b => (cmp a b).isLE = true := by
  apply List.pairwise_mergeSort
  · intro a b c hab hbc
    exact Std.TransCmp.isLE_trans hab hbc
  · intro a b
    have hswap : cmp b a = (cmp a b).swap := Std.OrientedCmp.eq_swap
    rw [hswap]
    cases cmp a b <;> rfl

/-- However a list is shuffled, sorting brings back the one that is in order. -/
theorem mergeSort_eq_of_perm [Std.LawfulEqCmp cmp] (h : l'.Perm l)
    (hl : l.Pairwise fun a b => (cmp a b).isLE = true) : l'.mergeSort (fun a b => (cmp a b).isLE) = l := by
  refine List.Perm.eq_of_pairwise (fun a b _ _ hab hba => ?_) (pairwise_mergeSort_isLE l') hl
    ((List.mergeSort_perm ..).trans h)
  exact Std.LawfulEqCmp.eq_of_compare (Std.OrientedCmp.isLE_antisymm hab hba)

end Sorting

variable {α : Type} {l : List (α × Float32)} {P : α × Float32 → α × Float32 → Prop} {query : Embedding}
  {candidates : List (α × Embedding)} {most : ℕ} {cutoff : Option Float32}

theorem byScore_perm (l : List (α × Float32)) : (byScore l).Perm l := List.mergeSort_perm ..

/-- Numbers in the order `P`, sorted by score, stand in descending order, and equal ones in the order `P`. -/
theorem byScore_then (h : ∀ x ∈ l, x.2.isNaN = false) (hP : l.Pairwise P) :
    (byScore l).Pairwise fun x y => y.2 ≤ x.2 ∧ (x.2 ≤ y.2 → P x y) := by
  -- only the comparison of places is transitive for all scores
  have hplaces : byScore l = l.mergeSort fun x y =>
      decide (standing y.2.toModel.unpack ≤ standing x.2.toModel.unpack) := by
    rw [← List.map_id (byScore l)]
    nth_rewrite 2 [← List.map_id l]
    refine List.map_mergeSort fun x hx y hy => ?_
    simp only [lt_iff_standing (h x hx) (h y hy), ← not_lt, decide_not, id]
  have hsorted : (byScore l).Pairwise fun x y =>
      decide (standing y.2.toModel.unpack ≤ standing x.2.toModel.unpack) = true ∧
        (decide (standing x.2.toModel.unpack ≤ standing y.2.toModel.unpack) = true → P x y) := by
    rw [hplaces]
    refine pairwise_mergeSort_then (fun x y z hxy hyz => ?_) (fun x y => ?_) hP
    · rw [decide_eq_true_iff] at *
      exact hyz.trans hxy
    · rw [Bool.or_eq_true, decide_eq_true_iff, decide_eq_true_iff]
      exact le_total ..
  apply hsorted.imp_of_mem
  intro x y hx hy hxy
  have hx := h x ((byScore_perm l).mem_iff.mp hx)
  have hy := h y ((byScore_perm l).mem_iff.mp hy)
  rw [le_iff_standing hy hx, le_iff_standing hx hy]
  simpa only [decide_eq_true_iff] using hxy

/-- Numbers sorted by score stand in descending order. -/
theorem byScore_descending (h : ∀ x ∈ l, x.2.isNaN = false) :
    (byScore l).Pairwise fun x y => y.2 ≤ x.2 :=
  (byScore_then (P := fun _ _ => True) h (List.pairwise_of_forall fun _ _ => trivial)).imp And.left

/-- What is in order already stays as it is. -/
theorem byScore_eq_self (h : l.Pairwise fun x y => ¬ x.2 < y.2) : byScore l = l :=
  List.mergeSort_of_pairwise (h.imp fun hxy => by simpa using hxy)

/-- Without a cutoff every candidate is ranked. -/
theorem nearest_none (query : Embedding) (candidates : List (α × Embedding)) (most : ℕ) :
    nearest query candidates most none =
      (byScore (candidates.map fun c => (c.1, cosine query c.2))).take most := by
  unfold nearest
  simp only [Option.all_none, List.filter_true]

/-- The nearest candidates come best first. -/
theorem nearest_descending (h : ∀ c ∈ candidates, (cosine query c.2).isNaN = false) :
    (nearest query candidates most cutoff).Pairwise fun x y => y.2 ≤ x.2 := by
  refine (byScore_descending fun x hx => ?_).sublist (List.take_sublist ..)
  obtain ⟨c, hc, rfl⟩ := List.mem_map.mp (List.mem_filter.mp hx).1
  exact h c hc

/-- Each candidate is found at most once. -/
theorem nearest_nodup (h : (candidates.map (·.1)).Nodup) :
    ((nearest query candidates most cutoff).map (·.1)).Nodup := by
  have hscored : ((candidates.map fun c => (c.1, cosine query c.2)).map (·.1)).Nodup := by
    rwa [List.map_map]
  have hkept : (((candidates.map fun c => (c.1, cosine query c.2)).filter
      fun c => cutoff.all fun least => least ≤ c.2).map (·.1)).Nodup :=
    hscored.sublist (List.filter_sublist.map _)
  have hsorted := ((byScore_perm _).map Prod.fst).nodup_iff.mpr hkept
  exact hsorted.sublist ((List.take_sublist ..).map _)

end CorpusIndex
