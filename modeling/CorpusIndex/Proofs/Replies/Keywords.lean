import CorpusIndex.Extract.Keywords
import CorpusIndex.Proofs.Text.Trimming
import Mathlib.Data.List.Nodup

/-!
# Keywords of a reply

What an item of a reply names is added name by name to what the items before it named, so the keywords of a
reply are pairwise distinct. Each is without blanks at its ends if it is a part of an item. For an item as a
whole this depends on what stands between its quote marks: blanks are taken off before the marks are, and
those that the marks enclosed stay.
-/
namespace CorpusIndex

namespace Text
variable {b c d : Char} {s t w : List Char}

/-! ### Lower-casing -/

/-- The code points of the blanks. -/
def blankRanges : CharRanges := [
  (0x9, 0xd), (0x20, 0x20), (0x85, 0x85), (0xa0, 0xa0), (0x1680, 0x1680), (0x2000, 0x200a), (0x2028, 0x2029),
  (0x202f, 0x202f), (0x205f, 0x205f), (0x3000, 0x3000)]

theorem isBlank_eq_holds (c : Char) : isBlank c = blankRanges.holds c := by
  rw [Bool.eq_iff_iff]
  simp [isBlank, blankRanges, CharRanges.holds]
  omega

theorem CharRanges.holds_iff {ranges : CharRanges} :
    ranges.holds c = true ↔ ∃ range ∈ ranges, range.1 ≤ c.toNat ∧ c.toNat ≤ range.2 := by
  simp [CharRanges.holds]

/-- Neither what a run moves nor where it moves it is near a blank. -/
theorem lowerRuns_apart : ∀ r ∈ lowerRuns, ∀ range ∈ blankRanges,
    (r.last < range.1 ∨ range.2 < r.first) ∧
      ((r.last : Int) + r.offset < range.1 ∨ (range.2 : Int) < r.first + r.offset) := by
  decide +kernel

theorem isBlank_toLower_of_lt : ∀ n < 128, isBlank (Char.ofNat n).toLower = isBlank (Char.ofNat n) := by
  decide +kernel

/-- A number that is no character gives the null character. -/
theorem toNat_ofNat_or_zero (n : Nat) : (Char.ofNat n).toNat = n ∨ (Char.ofNat n).toNat = 0 := by
  by_cases h : n.isValidChar
  · left
    rw [Char.ofNat, dif_pos h]
    rfl
  · right
    rw [Char.ofNat, dif_neg h]
    rfl

/-- A run moves what is not blank to what is not blank. -/
theorem isBlank_of_covers {r : CaseRun} (hr : r ∈ lowerRuns) (h : r.covers c.toNat = true) :
    isBlank (Char.ofNat (Int.ofNat c.toNat + r.offset).toNat) = false ∧ isBlank c = false := by
  have hcovers : r.first ≤ c.toNat ∧ c.toNat ≤ r.last := by
    simp only [CaseRun.covers, Bool.and_eq_true, decide_eq_true_eq] at h
    exact h.1
  simp only [isBlank_eq_holds, ← Bool.not_eq_true, CharRanges.holds_iff, not_exists, not_and]
  refine ⟨fun range hrange hlow hhigh => ?_, fun range hrange hlow hhigh => ?_⟩
  · have hpos : 0 < range.1 := (show ∀ range ∈ blankRanges, 0 < range.1 by decide) range hrange
    obtain ⟨-, happart⟩ := lowerRuns_apart r hr range hrange
    rcases toNat_ofNat_or_zero (Int.ofNat c.toNat + r.offset).toNat with hcode | hcode <;>
      simp only [Int.ofNat_eq_natCast] at hcode hlow hhigh <;> omega
  · obtain ⟨happart, -⟩ := lowerRuns_apart r hr range hrange
    omega

theorem isBlank_of_mem_lowerChar (h : d ∈ lowerChar c) : isBlank d = isBlank c := by
  unfold lowerChar at h
  split at h
  next hascii =>
    have hlower := isBlank_toLower_of_lt c.toNat hascii
    rw [Char.ofNat_toNat] at hlower
    rw [List.mem_singleton.mp h, hlower]
  next =>
    split at h
    next hdotted =>
      rw [show c = Char.ofNat 0x130 from Char.toNat_inj.mp (by simpa using hdotted)]
      rcases List.mem_pair.mp h with rfl | rfl <;> rfl
    next =>
      split at h
      next r hrun =>
        have hcovers : r.covers c.toNat = true := by simpa using List.find?_some hrun
        obtain ⟨hmoved, hc⟩ := isBlank_of_covers (List.mem_of_find?_eq_some hrun) hcovers
        rw [List.mem_singleton.mp h, hmoved, hc]
      next => rw [List.mem_singleton.mp h]

theorem lowerChar_ne_nil (c : Char) : lowerChar c ≠ [] := by
  unfold lowerChar
  split
  · simp
  · split
    · simp
    · split <;> simp

/-- A character is lower-cased to characters that are blank if it is. -/
theorem lowerAfter_cons (b : List Char) (c : Char) (s : List Char) :
    ∃ w, lowerAfter b (c :: s) = w ++ lowerAfter (c :: b) s ∧ w ≠ [] ∧ ∀ d ∈ w, isBlank d = isBlank c := by
  refine ⟨_, rfl, ?_, fun d hd => ?_⟩
  · split
    · exact List.cons_ne_nil _ _
    · exact lowerChar_ne_nil c
  · split at hd
    next hsigma =>
      rw [eq_of_beq hsigma]
      split at hd <;> rw [List.mem_singleton.mp hd] <;> rfl
    next => exact isBlank_of_mem_lowerChar hd

theorem lowerAfter_eq_nil {b : List Char} : lowerAfter b s = [] ↔ s = [] := by
  cases s with
  | nil => exact iff_of_true rfl rfl
  | cons c s =>
      obtain ⟨w, hw, hne, _⟩ := lowerAfter_cons b c s
      rw [hw]
      exact iff_of_false (by simp [hne]) (List.cons_ne_nil c s)

theorem head?_lowerAfter (b s : List Char) :
    (lowerAfter b s).head?.map isBlank = s.head?.map isBlank := by
  cases s with
  | nil => rfl
  | cons c s =>
      obtain ⟨w, hw, hne, hblank⟩ := lowerAfter_cons b c s
      rw [hw, List.head?_append_of_ne_nil _ hne, List.head?_eq_some_head hne, List.head?_cons, Option.map_some,
        Option.map_some, hblank _ (List.head_mem hne)]

theorem getLast?_lowerAfter (b s : List Char) :
    (lowerAfter b s).getLast?.map isBlank = s.getLast?.map isBlank := by
  induction s generalizing b with
  | nil => rfl
  | cons c s ih =>
      obtain ⟨w, hw, hne, hblank⟩ := lowerAfter_cons b c s
      rw [hw]
      cases s with
      | nil =>
          rw [lowerAfter, List.append_nil, List.getLast?_eq_some_getLast hne, List.getLast?_singleton,
            Option.map_some, Option.map_some, hblank _ (List.getLast_mem hne)]
      | cons d s =>
          rw [List.getLast?_append_of_ne_nil _ (mt lowerAfter_eq_nil.mp (List.cons_ne_nil d s)), ih,
            List.getLast?_cons_cons]

/-- Lower-casing neither makes nor removes a blank at an end. -/
theorem tidy_lowercase : Tidy (lowercase s) ↔ Tidy s := by
  rw [tidy_iff, tidy_iff, lowercase, head?_lowerAfter, getLast?_lowerAfter]

end Text

namespace Keywords
open Text
variable {k : String} {keywords : List String} {item w : List Char} {ws : List (List Char)}

/-! ### What a reply names -/

/-- The text of an item between its quote marks. -/
def unmarked (item : List Char) : List Char := trimBy isQuoteMark (trim item)

/-- What an item names: its keyword, and the parts of one that has several. -/
def named (item : List Char) : List (List Char) :=
  lowercase (unmarked item) ::
    if (words (lowercase (unmarked item))).length > 1 then
      (words (lowercase (unmarked item))).filter (fun p => !isStopWord (String.ofList p))
    else []

/-- The items of a reply that are read. -/
def items (reply : String) (most : Nat) : List (List Char) :=
  (pieces (· == ',') ((afterFirst? "KEYWORDS:".toList reply.toList).getD reply.toList)).take most

theorem addItem_eq (keywords : List String) (item : List Char) :
    addItem keywords item = (named item).foldl addKeyword keywords := by
  rw [named, List.foldl_cons]
  by_cases hparts : (words (lowercase (unmarked item))).length > 1
  · rw [if_pos hparts]
    exact if_pos hparts
  · rw [if_neg hparts]
    exact if_neg hparts

theorem ofReply_eq (reply : String) (most : Nat) :
    ofReply reply most = ((items reply most).flatMap named).foldl addKeyword [] := by
  rw [List.foldl_flatMap, ← funext₂ addItem_eq]
  rfl

theorem mem_addKeyword : k ∈ addKeyword keywords w ↔ k ∈ keywords ∨ w ≠ [] ∧ k = String.ofList w := by
  simp only [addKeyword]
  split
  next h =>
    rw [Bool.or_eq_true, List.isEmpty_iff, List.contains_iff_mem] at h
    refine ⟨Or.inl, fun hk => hk.elim id ?_⟩
    rintro ⟨hne, rfl⟩
    exact h.resolve_left hne
  next h =>
    rw [Bool.or_eq_true, List.isEmpty_iff, not_or] at h
    rw [List.mem_append, List.mem_singleton]
    exact or_congr_right (iff_and_self.mpr fun _ => h.1)

theorem nodup_addKeyword (h : keywords.Nodup) (w : List Char) : (addKeyword keywords w).Nodup := by
  simp only [addKeyword]
  split
  next => exact h
  next hnew =>
    rw [Bool.or_eq_true, not_or, List.contains_iff_mem] at hnew
    exact List.nodup_append.mpr ⟨h, List.nodup_singleton _, by
      rintro a ha b hb rfl
      exact hnew.2 (List.mem_singleton.mp hb ▸ ha)⟩

theorem mem_foldl_addKeyword :
    k ∈ ws.foldl addKeyword keywords ↔ k ∈ keywords ∨ ∃ w ∈ ws, w ≠ [] ∧ k = String.ofList w := by
  induction ws generalizing keywords with
  | nil => simp
  | cons w ws ih => simp only [List.foldl_cons, ih, mem_addKeyword, or_assoc, List.exists_mem_cons_iff]

theorem nodup_foldl_addKeyword (ws : List (List Char)) (h : keywords.Nodup) :
    (ws.foldl addKeyword keywords).Nodup := by
  induction ws generalizing keywords with
  | nil => exact h
  | cons w ws ih => exact ih (nodup_addKeyword h w)

theorem nodup_ofReply (reply : String) (most : Nat) : (ofReply reply most).Nodup := by
  rw [ofReply_eq]
  exact nodup_foldl_addKeyword _ List.nodup_nil

/-- The keywords of a reply are what its items name. -/
theorem mem_ofReply {reply : String} {most : Nat} :
    k ∈ ofReply reply most ↔ ∃ item ∈ items reply most, ∃ w ∈ named item, w ≠ [] ∧ k = String.ofList w := by
  rw [ofReply_eq, mem_foldl_addKeyword]
  simp only [List.not_mem_nil, false_or, List.mem_flatMap]
  constructor
  · rintro ⟨w, ⟨item, hitem, hw⟩, h⟩
    exact ⟨item, hitem, w, hw, h⟩
  · rintro ⟨item, hitem, w, hw, h⟩
    exact ⟨w, ⟨item, hitem, hw⟩, h⟩

theorem named_of_unmarked_eq_nil (h : unmarked item = []) : named item = [[]] := by
  rw [named, h]
  rfl

theorem tidy_of_mem_named (h : Tidy (unmarked item)) (hw : w ∈ named item) : Tidy w := by
  rcases List.mem_cons.mp hw with rfl | hw
  · exact tidy_lowercase.mpr h
  · split at hw
    · exact tidy_of_mem_words (List.mem_of_mem_filter hw)
    · cases hw

/-- The keywords of a reply are pairwise distinct. All of them have a character that is not blank and no blank at
an end exactly if this holds of what every item read has between its quote marks, where it has anything there. -/
theorem ofReply_nodup_and_tidy_iff (reply : String) (most : Nat) :
    (ofReply reply most).Nodup ∧
      ((∀ k ∈ ofReply reply most, Tidy k.toList) ↔
        ∀ item ∈ items reply most, unmarked item ≠ [] → Tidy (unmarked item)) := by
  refine ⟨nodup_ofReply reply most, fun h item hitem hne => ?_, fun h k hk => ?_⟩
  · have hk := h _ (mem_ofReply.mpr ⟨item, hitem, _, List.mem_cons_self, mt lowerAfter_eq_nil.mp hne, rfl⟩)
    rw [String.toList_ofList] at hk
    exact tidy_lowercase.mp hk
  · obtain ⟨item, hitem, w, hw, hne, rfl⟩ := mem_ofReply.mp hk
    rw [String.toList_ofList]
    refine tidy_of_mem_named (h item hitem fun hnil => hne ?_) hw
    rw [named_of_unmarked_eq_nil hnil] at hw
    exact List.mem_singleton.mp hw

/-- The blanks that quote marks enclose are kept, and may be all that a keyword consists of. -/
theorem quoted_blanks_are_kept :
    ¬ ∀ (reply : String) (most : Nat), (ofReply reply most).Nodup ∧ ∀ k ∈ ofReply reply most, Tidy k.toList := by
  intro h
  have hblank : "  " ∈ ofReply "KEYWORDS: ' a ', '  '" 2 := by decide
  have hall : "  ".toList.all isBlank = true := by decide
  obtain ⟨c, hc, hink⟩ := ((h _ _).2 _ hblank).inked
  rw [List.all_eq_true.mp hall c hc] at hink
  cases hink

end Keywords
end CorpusIndex
