import CorpusIndex.Proofs.Ingest.Chunks

/-!
# Sentences in chunks

The chunks of a paragraph beyond the budget are whole sentences, as many as the budget takes, and pieces of
sentences that are beyond the budget themselves. The pieces of one sentence repeat words of the piece before;
nothing else is repeated and nothing left out.
-/
namespace CorpusIndex

open Text

/-- Pieces of a run of words, in order, of `w` words but for the last, which may have fewer. Each after the
first begins with the last `o` words of the one before and goes on. -/
inductive Overlapping (w o : ℕ) : List (List Char) → List (List (List Char)) → Prop
  | last {ws : List (List Char)} : ws ≠ [] → ws.length ≤ w → Overlapping w o ws [ws]
  | next {fresh shared ahead rest : List (List Char)} {pieces : List (List (List Char))} :
      (fresh ++ shared).length = w → shared.length = o → fresh ≠ [] → ahead ≠ [] →
      Overlapping w o (shared ++ rest) ((shared ++ ahead) :: pieces) →
      Overlapping w o (fresh ++ (shared ++ rest)) ((fresh ++ shared) :: (shared ++ ahead) :: pieces)

/-- Chunks that read words in order: the next chunk has the words that come next, or the next chunks are the
pieces of a sentence beyond the budget. -/
inductive Chunker.Reads (c : Chunker) (IsSentence : List Char → Prop) :
    List (List Char) → List (List Char) → Prop
  | done : c.Reads IsSentence [] []
  | chunk {chunk : List Char} {ws chunks : List (List Char)} :
      words chunk ≠ [] → c.Reads IsSentence ws chunks →
      c.Reads IsSentence (words chunk ++ ws) (chunk :: chunks)
  | cut {sentence : List Char} {pieces ws chunks : List (List Char)} :
      IsSentence sentence → c.budget < c.estimate (words sentence).length →
      Overlapping c.window c.overlap (words sentence) (pieces.map words) → c.Reads IsSentence ws chunks →
      c.Reads IsSentence (words sentence ++ ws) (pieces ++ chunks)

/-- Sentences in chunks: several in one as long as the budget takes them, a sentence beyond the budget in
pieces. Where the first chunk holds whole sentences, `first` is the first of them, and the chunk before has no
room for it. -/
inductive Chunker.Packing (c : Chunker) : Option (List Char) → List (List Char) → List (List Char) → Prop
  | done : c.Packing none [] []
  | packed {s : List Char} {more rest chunks : List (List Char)} {next : Option (List Char)} :
      c.estimate ((s :: more).flatMap words).length ≤ c.budget →
      (∀ t ∈ next, c.budget < c.estimate ((s :: more ++ [t]).flatMap words).length) →
      c.Packing next rest chunks →
      c.Packing (some s) (s :: more ++ rest) (joinWith [' '] (s :: more) :: chunks)
  | cut {s : List Char} {rest chunks : List (List Char)} {next : Option (List Char)} :
      c.budget < c.estimate (words s).length → c.Packing next rest chunks →
      c.Packing none (s :: rest) (c.cut s ++ chunks)

namespace Chunker
variable {c : Chunker} {s p : List Char} {ws piece current ss chunks : List (List Char)}

/-! ### Windows -/

theorem windows_of_lt (h : c.window < ws.length) :
    c.windows ws = ws.take c.window :: c.windows (ws.drop (c.window - c.overlap)) := by
  rw [windows, dif_pos h]

theorem windows_of_le (h : ws.length ≤ c.window) (hne : ws ≠ []) : c.windows ws = [ws] := by
  rw [windows, dif_neg (Nat.not_lt.mpr h)]
  simp [hne]

/-- The first window has more words than the next one repeats. -/
theorem exists_windows_eq (h : c.overlap < ws.length) :
    ∃ ahead pieces, ahead ≠ [] ∧ c.windows ws = (ws.take c.overlap ++ ahead) :: pieces := by
  have hwindow := c.overlap_lt_window
  by_cases hlong : c.window < ws.length
  · refine ⟨(ws.drop c.overlap).take (c.window - c.overlap),
      c.windows (ws.drop (c.window - c.overlap)), ?_, ?_⟩
    · apply List.ne_nil_of_length_pos
      rw [List.length_take, List.length_drop]
      omega
    · rw [windows_of_lt hlong, ← List.take_add]
      congr 2
      omega
  · refine ⟨ws.drop c.overlap, [], ?_, ?_⟩
    · apply List.ne_nil_of_length_pos
      rw [List.length_drop]
      omega
    · rw [windows_of_le (Nat.le_of_not_lt hlong) (List.ne_nil_of_length_pos (by omega)),
        List.take_append_drop]

theorem overlapping_windows (h : ws ≠ []) : Overlapping c.window c.overlap ws (c.windows ws) := by
  have hwindow := c.overlap_lt_window
  induction hlength : ws.length using Nat.strong_induction_on generalizing ws with
  | _ k ih =>
      subst hlength
      by_cases hlong : c.window < ws.length
      · let rest := ws.drop (c.window - c.overlap)
        have hrest : rest.length = ws.length - (c.window - c.overlap) := List.length_drop
        have hmore : c.overlap < rest.length := by omega
        obtain ⟨ahead, pieces, hahead, heq⟩ := exists_windows_eq hmore
        have hpieces : Overlapping c.window c.overlap rest (c.windows rest) :=
          ih rest.length (by omega) (List.ne_nil_of_length_pos (by omega)) rfl
        have hfirst : ws.take c.window = ws.take (c.window - c.overlap) ++ rest.take c.overlap := by
          rw [← List.take_add]
          congr 1
          omega
        have hwords : ws = ws.take (c.window - c.overlap) ++ (rest.take c.overlap ++ rest.drop c.overlap) := by
          rw [List.take_append_drop, List.take_append_drop]
        rw [heq] at hpieces
        rw [windows_of_lt hlong, heq, hfirst]
        nth_rewrite 1 [hwords]
        apply Overlapping.next
        · rw [← hfirst, List.length_take]
          omega
        · rw [List.length_take]
          omega
        · apply List.ne_nil_of_length_pos
          rw [List.length_take]
          omega
        · exact hahead
        · rw [List.take_append_drop]
          exact hpieces
      · rw [windows_of_le (Nat.le_of_not_lt hlong) h]
        exact .last h (Nat.le_of_not_lt hlong)

/-- A window is a part of the words, and no longer than a window may be. -/
theorem infix_of_mem_windows (h : piece ∈ c.windows ws) : piece <:+: ws ∧ piece.length ≤ c.window := by
  fun_induction windows c ws with
  | case1 ws hlong _ ih =>
      rcases List.mem_cons.mp h with rfl | h
      · exact ⟨(List.take_prefix ..).isInfix, List.length_take_le ..⟩
      · obtain ⟨hin, hle⟩ := ih h
        exact ⟨hin.trans (List.drop_suffix ..).isInfix, hle⟩
  | case2 ws hlong hnil => cases h
  | case3 ws hshort hne =>
      rw [List.mem_singleton.mp h]
      exact ⟨List.infix_rfl, Nat.le_of_not_lt hshort⟩

/-- The pieces of a sentence are read back as the windows of its words. -/
theorem map_words_cut (c : Chunker) (s : List Char) : (c.cut s).map words = c.windows (words s) := by
  rw [cut, List.map_map]
  conv_rhs => rw [← List.map_id (c.windows (words s))]
  apply List.map_congr_left
  intro piece hpiece
  apply words_join_words
  intro w hw
  exact words_of_mem_words ((infix_of_mem_windows hpiece).1.subset hw)

/-! ### Packing -/

theorem joinWith_concat (sep : List Char) (s : List Char) (hne : current ≠ []) :
    joinWith sep (current ++ [s]) = joinWith sep current ++ sep ++ s := by
  fun_induction joinWith sep current with
  | case1 => exact (hne rfl).elim
  | case2 t => simp [joinWith]
  | case3 t rest hrest ih => simp [joinWith, ih hrest]

theorem joinWith_eq_nil_iff (h : ∀ s ∈ current, words s ≠ []) : joinWith [' '] current = [] ↔ current = [] := by
  constructor
  · intro hnil
    have hwords := congrArg words hnil
    rw [words_joinWith, words_nil, List.flatMap_eq_nil_iff] at hwords
    exact List.eq_nil_iff_forall_not_mem.mpr fun s hs => h s hs (hwords s hs)
  · rintro rfl
    rfl

theorem fits_iff : c.fits s = true ↔ c.estimate (words s).length ≤ c.budget := decide_eq_true_iff

theorem fits_join_iff : c.fits (joinWith [' '] ss) = true ↔ c.estimate (ss.flatMap words).length ≤ c.budget := by
  rw [fits_iff, words_joinWith]

theorem isEmpty_join (h : ∀ s ∈ current, words s ≠ []) :
    (joinWith [' '] current).isEmpty = current.isEmpty := by
  rw [Bool.eq_iff_iff, List.isEmpty_iff, List.isEmpty_iff, joinWith_eq_nil_iff h]

theorem join_concat (h : ∀ s ∈ current, words s ≠ []) (s : List Char) :
    (if (joinWith [' '] current).isEmpty then s else joinWith [' '] current ++ ' ' :: s) =
      joinWith [' '] (current ++ [s]) := by
  rw [isEmpty_join h]
  cases current with
  | nil => rfl
  | cons t more => rw [joinWith_concat _ _ (by simp), List.append_assoc]; rfl

/-- A sentence is added to those of the chunk as long as the budget takes it. -/
theorem pack_of_fits (hcurrent : ∀ s ∈ current, words s ≠ [])
    (h : c.estimate ((current ++ [s]).flatMap words).length ≤ c.budget) (rest : List (List Char)) :
    c.pack (joinWith [' '] current) (s :: rest) = c.pack (joinWith [' '] (current ++ [s])) rest := by
  rw [pack, join_concat hcurrent]
  exact if_pos (fits_join_iff.mpr h)

/-- A sentence the budget does not take closes the chunk; it begins the next one unless it is beyond the budget
itself. -/
theorem pack_of_not_fits (hcurrent : ∀ s ∈ current, words s ≠ [])
    (h : c.budget < c.estimate ((current ++ [s]).flatMap words).length) (rest : List (List Char)) :
    c.pack (joinWith [' '] current) (s :: rest) =
      (if current.isEmpty then [] else [joinWith [' '] current]) ++
        if c.fits s then c.pack s rest else c.cut s ++ c.pack [] rest := by
  have hfull : ¬ c.fits (joinWith [' '] (current ++ [s])) = true := by
    rw [fits_join_iff]
    omega
  rw [pack, join_concat hcurrent, isEmpty_join hcurrent]
  simp only [if_neg hfull]
  split
  · rfl
  · exact List.append_assoc ..

/-- The sentences still to be packed come after those of the chunk being filled. -/
theorem packing_pack (current ss : List (List Char))
    (hcurrent : current ≠ [] → c.estimate (current.flatMap words).length ≤ c.budget)
    (hwords : ∀ s ∈ current ++ ss, words s ≠ []) :
    ∃ first, c.Packing first (current ++ ss) (c.pack (joinWith [' '] current) ss) ∧
      (current ≠ [] → first = current.head?) := by
  induction ss generalizing current with
  | nil =>
      rw [List.append_nil] at hwords ⊢
      cases current with
      | nil => exact ⟨none, .done, fun hne => (hne rfl).elim⟩
      | cons s more =>
          have hpack : c.pack (joinWith [' '] (s :: more)) [] = [joinWith [' '] (s :: more)] := by
            rw [pack, isEmpty_join hwords]
            rfl
          have hfits := hcurrent (List.cons_ne_nil s more)
          have hpacked : c.Packing (some s) (s :: more ++ []) [joinWith [' '] (s :: more)] :=
            .packed hfits (by simp) .done
          rw [List.append_nil] at hpacked
          exact ⟨some s, hpack ▸ hpacked, fun _ => rfl⟩
  | cons s ss ih =>
      have hleft : ∀ t ∈ current, words t ≠ [] := fun t ht => hwords t (List.mem_append_left _ ht)
      have hright : ∀ t ∈ s :: ss, words t ≠ [] := fun t ht => hwords t (List.mem_append_right _ ht)
      by_cases hfits : c.estimate ((current ++ [s]).flatMap words).length ≤ c.budget
      · rw [List.append_cons] at hwords ⊢
        obtain ⟨first, hpacking, hfirst⟩ := ih (current ++ [s]) (fun _ => hfits) hwords
        rw [pack_of_fits hleft hfits]
        refine ⟨first, hpacking, fun hne => ?_⟩
        rw [hfirst (by simp)]
        cases current with
        | nil => exact (hne rfl).elim
        | cons t more => rfl
      · rw [pack_of_not_fits hleft (Nat.lt_of_not_le hfits)]
        by_cases hs : c.fits s = true
        · rw [if_pos hs]
          obtain ⟨first, hpacking, hfirst⟩ := ih [s] (fun _ => by simpa using fits_iff.mp hs) hright
          obtain rfl : first = some s := hfirst (by simp)
          cases current with
          | nil => exact ⟨some s, hpacking, fun hne => (hne rfl).elim⟩
          | cons t more =>
              refine ⟨some t, .packed (hcurrent (by simp)) ?_ hpacking, fun _ => rfl⟩
              simpa using hfits
        · rw [if_neg hs]
          obtain ⟨first, hpacking, _⟩ := ih [] (by simp) fun t ht => hright t (by simp_all)
          have hlong : c.budget < c.estimate (words s).length := Nat.lt_of_not_le fun hle => hs (fits_iff.mpr hle)
          have hcut : c.Packing none (s :: ss) (c.cut s ++ c.pack [] ss) := .cut hlong hpacking
          cases current with
          | nil => exact ⟨none, hcut, fun hne => (hne rfl).elim⟩
          | cons t more =>
              exact ⟨some t, .packed (hcurrent (by simp)) (by simp) hcut, fun _ => rfl⟩

end Chunker
end CorpusIndex
