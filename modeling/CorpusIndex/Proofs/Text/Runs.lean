import CorpusIndex.Text.Blank

/-!
# Pieces and runs of a text

A text is cut into pieces at the characters that satisfy `p`. Its runs are the pieces between the characters that
are not kept, without the empty ones. They are the maximal stretches of characters that are kept: one list of texts
alone stands in a text like this.
-/
namespace CorpusIndex.Text

variable {p keep : Char → Bool} {c : Char} {s t w gap run rest : List Char} {l : List (List Char)}

/-! ### Pieces -/

theorem pieces_eq_splitOnP (p : Char → Bool) (s : List Char) : pieces p s = s.splitOnP p := by
  induction s with
  | nil => rfl
  | cons c s ih =>
      rw [pieces, List.splitOnP_cons_eq_if_modifyHead, ih]
      cases h : s.splitOnP p with
      | nil => exact (List.splitOnP_ne_nil p s h).elim
      | cons piece rest => rfl

theorem pieces_of_forall (h : ∀ c ∈ s, p c = false) : pieces p s = [s] := by
  rw [pieces_eq_splitOnP, List.splitOnP_eq_singleton h]

theorem pieces_append (s : List Char) (hc : p c = true) : pieces p (s ++ c :: t) = pieces p s ++ pieces p t := by
  rw [pieces_eq_splitOnP, List.splitOnP_append_cons s t hc, ← pieces_eq_splitOnP, ← pieces_eq_splitOnP]

theorem pieces_congr {q : Char → Bool} (h : ∀ c ∈ s, p c = q c) : pieces p s = pieces q s := by
  induction s with
  | nil => rfl
  | cons c s ih =>
      rw [pieces, pieces, h c List.mem_cons_self, ih fun d hd => h d (List.mem_cons_of_mem c hd)]

theorem pieces_of_not_mem (h : c ∉ s) : pieces (· == c) s = [s] :=
  pieces_of_forall fun _ hd => beq_false_of_ne (ne_of_mem_of_not_mem hd h)

theorem pieces_append_cons (h : c ∉ s) (r : List Char) :
    pieces (· == c) (s ++ c :: r) = s :: pieces (· == c) r := by
  have hc : (c == c) = true := beq_self_eq_true c
  rw [pieces_append (p := (· == c)) s hc, pieces_of_not_mem h, List.singleton_append]

/-- Texts with a cut between them are cut each on its own. -/
theorem pieces_intercalate (hc : p c = true) (hne : l ≠ []) :
    pieces p ([c].intercalate l) = l.flatMap (pieces p) := by
  induction l with
  | nil => exact absurd rfl hne
  | cons s l ih =>
      cases l with
      | nil => simp
      | cons t l =>
          rw [List.intercalate_cons_cons, List.append_assoc, List.singleton_append, pieces_append s hc,
            ih (List.cons_ne_nil t l)]
          rfl

/-- A text is its pieces with what they are cut at between them. -/
theorem eq_of_pieces_eq (h : pieces (· == c) s = pieces (· == c) t) : s = t := by
  rw [pieces_eq_splitOnP, pieces_eq_splitOnP] at h
  calc s = [c].intercalate (s.splitOn c) := (List.intercalate_splitOn c).symm
    _ = [c].intercalate (t.splitOn c) := congrArg _ h
    _ = t := List.intercalate_splitOn c

theorem of_mem_pieces (hw : w ∈ pieces p s) (hc : c ∈ w) : c ∈ s ∧ p c = false := by
  induction s generalizing w with
  | nil =>
      rw [List.mem_singleton.mp hw] at hc
      cases hc
  | cons d s ih =>
      unfold pieces at hw
      split at hw
      next =>
        rcases List.mem_cons.mp hw with rfl | hw
        · cases hc
        · exact (ih hw hc).imp_left (List.mem_cons_of_mem d)
      next hd =>
        split at hw
        next hnil => exact (pieces_ne_nil p s hnil).elim
        next piece rest hpieces =>
          rw [hpieces] at ih
          rcases List.mem_cons.mp hw with rfl | hw
          · rcases List.mem_cons.mp hc with rfl | hc
            · exact ⟨List.mem_cons_self, by simpa using hd⟩
            · exact (ih List.mem_cons_self hc).imp_left (List.mem_cons_of_mem d)
          · exact (ih (List.mem_cons_of_mem _ hw) hc).imp_left (List.mem_cons_of_mem d)

theorem not_of_mem_pieces (hw : w ∈ pieces p s) (hc : c ∈ w) : p c = false := (of_mem_pieces hw hc).2

/-! ### Runs -/

theorem of_mem_runs (hw : w ∈ runs keep s) (hc : c ∈ w) : keep c = true := by
  simpa using not_of_mem_pieces (List.mem_filter.mp hw).1 hc

/-- A character that is not kept separates the runs before it from those after it. -/
theorem runs_append (hc : keep c = false) (s t : List Char) :
    runs keep (s ++ c :: t) = runs keep s ++ runs keep t := by
  rw [runs, pieces_append s (by simpa using hc), List.filter_append]
  rfl

theorem runs_cons (hc : keep c = false) (s : List Char) : runs keep (c :: s) = runs keep s :=
  runs_append hc [] s

theorem runs_of_forall (hne : w ≠ []) (hw : ∀ c ∈ w, keep c = true) : runs keep w = [w] := by
  rw [runs, pieces_of_forall fun c hc => by simpa using hw c hc]
  simp [hne]

theorem runs_gap_append (hgap : ∀ c ∈ gap, keep c = false) (s : List Char) :
    runs keep (gap ++ s) = runs keep s := by
  induction gap with
  | nil => rfl
  | cons c gap ih =>
      obtain ⟨hc, hgap⟩ := List.forall_mem_cons.mp hgap
      rw [List.cons_append, runs_cons hc, ih hgap]

theorem runs_run_append (hne : run ≠ []) (hrun : ∀ c ∈ run, keep c = true)
    (hrest : rest.head?.any keep = false) : runs keep (run ++ rest) = run :: runs keep rest := by
  cases rest with
  | nil =>
      rw [List.append_nil, runs_of_forall hne hrun]
      rfl
  | cons c rest =>
      have hc : keep c = false := hrest
      rw [runs_append hc, runs_cons hc, runs_of_forall hne hrun, List.singleton_append]

/-- The texts stand in a text in order and consist of characters that are kept. None of those around them is kept,
and between any two stands one at least. -/
inductive MaximalRuns (keep : Char → Bool) : List Char → List (List Char) → Prop
  | gap {gap : List Char} : (∀ c ∈ gap, keep c = false) → MaximalRuns keep gap []
  | cons {gap run rest : List Char} {l : List (List Char)} : (∀ c ∈ gap, keep c = false) → run ≠ [] →
      (∀ c ∈ run, keep c = true) → rest.head?.any keep = false → MaximalRuns keep rest l →
      MaximalRuns keep (gap ++ (run ++ rest)) (run :: l)

namespace MaximalRuns

theorem eq_runs (h : MaximalRuns keep s l) : l = runs keep s := by
  induction h with
  | gap hgap =>
      have hnone := runs_gap_append hgap []
      rw [List.append_nil] at hnone
      exact hnone.symm
  | cons hgap hne hrun hrest _ ih => rw [runs_gap_append hgap, runs_run_append hne hrun hrest, ih]

theorem cons_gap (hc : keep c = false) (h : MaximalRuns keep s l) : MaximalRuns keep (c :: s) l := by
  cases h with
  | gap hgap => exact .gap (List.forall_mem_cons.mpr ⟨hc, hgap⟩)
  | cons hgap hne hrun hrest h => exact .cons (List.forall_mem_cons.mpr ⟨hc, hgap⟩) hne hrun hrest h

/-- A run of one character ends where the text goes on with one that is not kept. -/
theorem cons_single (hc : keep c = true) (hs : s.head?.any keep = false) (h : MaximalRuns keep s l) :
    MaximalRuns keep (c :: s) ([c] :: l) := by
  have hnothing : ∀ d ∈ ([] : List Char), keep d = false := by simp
  exact .cons hnothing (List.cons_ne_nil c []) (by simpa using hc) hs h

/-- A character that is kept makes the run at the start longer, or one of its own if the text starts with a gap. -/
theorem exists_cons (hc : keep c = true) (h : MaximalRuns keep s l) : ∃ l, MaximalRuns keep (c :: s) l := by
  cases h with
  | gap hgap =>
      refine ⟨_, cons_single hc ?_ (.gap hgap)⟩
      cases s with
      | nil => rfl
      | cons d s => exact hgap d List.mem_cons_self
  | @cons gap run rest l hgap hne hrun hrest h =>
      cases gap with
      | nil => exact ⟨_, .cons hgap (List.cons_ne_nil c run) (List.forall_mem_cons.mpr ⟨hc, hrun⟩) hrest h⟩
      | cons d gap => exact ⟨_, cons_single hc (hgap d List.mem_cons_self) (.cons hgap hne hrun hrest h)⟩

end MaximalRuns

theorem exists_maximalRuns (keep : Char → Bool) (s : List Char) : ∃ l, MaximalRuns keep s l := by
  induction s with
  | nil => exact ⟨[], .gap (by simp)⟩
  | cons c s ih =>
      obtain ⟨l, h⟩ := ih
      cases hc : keep c with
      | true => exact h.exists_cons hc
      | false => exact ⟨l, h.cons_gap hc⟩

theorem maximalRuns_iff : MaximalRuns keep s l ↔ l = runs keep s := by
  refine ⟨MaximalRuns.eq_runs, ?_⟩
  rintro rfl
  obtain ⟨l, h⟩ := exists_maximalRuns keep s
  rwa [← h.eq_runs]

end CorpusIndex.Text
