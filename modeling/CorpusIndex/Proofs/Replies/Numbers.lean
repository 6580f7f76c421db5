import CorpusIndex.Proofs.Action
import CorpusIndex.Proofs.Decimal
import CorpusIndex.Proofs.FirstOccurrences
import CorpusIndex.Proofs.Text.Runs
import CorpusIndex.Selection

/-!
# Numbers of a reply

A model names candidates by their numbers, counted from one, in the order in which it prefers them. Whatever else
its reply says, the candidates picked are the first ones that it mentions, each counted once, as many as are asked
for.
-/
namespace CorpusIndex.Selector

variable {σ : Type} {count most n : Nat} {ms ns taken : List Nat} {model : LanguageModel σ} {template : String}
  {query : Query} {candidates : List Node} {reply : String} {s s' : σ}

/-! ### Picking by number -/

/-- What is no candidate's number, or the number of a place that is taken, is passed over. -/
theorem picks_cons_skip (h : ¬ (1 ≤ n ∧ n ≤ count) ∨ n - 1 ∈ taken) (ns : List Nat) :
    picks count most taken (n :: ns) = picks count most taken ns := by
  have hskip : (n = 0 || n > count || taken.contains (n - 1)) = true := by
    simp only [Bool.or_eq_true, decide_eq_true_eq, List.contains_iff_mem]
    exact h.imp_left fun h => by omega
  rw [picks, if_pos hskip]

theorem picks_cons_take (h : 1 ≤ n ∧ n ≤ count) (hnew : n - 1 ∉ taken) (ns : List Nat) :
    picks count most taken (n :: ns) =
      if (taken ++ [n - 1]).length = most then taken ++ [n - 1] else picks count most (taken ++ [n - 1]) ns := by
  have htake : ¬ (n = 0 || n > count || taken.contains (n - 1)) = true := by
    simp only [Bool.or_eq_true, decide_eq_true_eq, List.contains_iff_mem, not_or]
    exact ⟨by omega, hnew⟩
  rw [picks, if_neg htake]

theorem mem_places (hms : ∀ m ∈ ms, 1 ≤ m) (hn : 1 ≤ n) : n - 1 ∈ ms.map (· - 1) ↔ n ∈ ms := by
  rw [List.mem_map]
  constructor
  · rintro ⟨m, hm, heq⟩
    have hpos := hms m hm
    rwa [show n = m by omega]
  · exact fun h => ⟨n, h, rfl⟩

/-- With the places of the numbers `ms` taken, the places picked in the end are those of the first numbers in `ms`
and in what follows it, each once. -/
theorem picks_from (hms : ∀ m ∈ ms, 1 ≤ m) (hdistinct : ms.Nodup) (hroom : ms.length < most) (ns : List Nat) :
    picks count most (ms.map (· - 1)) ns =
      ((ms ++ ns.filter fun n => 1 ≤ n ∧ n ≤ count).eraseDups.take most).map (· - 1) := by
  -- a number that is taken joins `ms`, which stays distinct and short of `most`
  induction ns generalizing ms with
  | nil =>
      rw [picks, List.filter_nil, List.append_nil, eraseDups_of_nodup hdistinct, List.take_of_length_le hroom.le]
  | cons n ns ih =>
      by_cases hcandidate : 1 ≤ n ∧ n ≤ count
      · rw [List.filter_cons_of_pos (by simpa using hcandidate)]
        by_cases htaken : n ∈ ms
        · rw [picks_cons_skip (.inr ((mem_places hms hcandidate.1).mpr htaken)), ih hms hdistinct hroom,
            eraseDups_append_cons_of_mem htaken]
        · have hplaces : ms.map (· - 1) ++ [n - 1] = (ms ++ [n]).map (· - 1) := by simp
          have hlonger : (ms ++ [n]).Nodup := by
            rw [← List.concat_eq_append]
            exact hdistinct.concat htaken
          rw [picks_cons_take hcandidate (mt (mem_places hms hcandidate.1).mp htaken), hplaces,
            List.append_cons ms n (ns.filter _), List.length_map]
          split
          next hfull => rw [take_eraseDups_append hlonger hfull]
          next hfree =>
            refine ih (List.forall_mem_append.mpr ⟨hms, by simpa using hcandidate.1⟩) hlonger ?_
            rw [List.length_append, List.length_singleton] at hfree ⊢
            omega
      · rw [List.filter_cons_of_neg (by simpa using hcandidate), picks_cons_skip (.inl hcandidate),
          ih hms hdistinct hroom]

theorem picks_eq (hmost : 1 ≤ most) (ns : List Nat) : picks count most [] ns =
    ((ns.filter fun n => 1 ≤ n ∧ n ≤ count).eraseDups.take most).map (· - 1) := by
  have hnothing : ∀ m ∈ ([] : List Nat), 1 ≤ m := by simp
  exact picks_from hnothing List.nodup_nil hmost ns

/-! ### Reading a reply -/

theorem numbers_eq (reply : String) : numbers reply =
    ((Text.runs Decimal.isDigit reply.toList).map Decimal.ofDigits).filter (· ≤ Decimal.maxWord) := by
  have hread : ∀ ds ∈ Text.runs Decimal.isDigit reply.toList, Decimal.readWhole? ds =
      (Option.guard (· ≤ Decimal.maxWord) ∘ Decimal.ofDigits) ds := fun ds hds =>
    Decimal.readWhole?_of_digits (Text.ne_nil_of_mem_runs hds) fun _ => Text.of_mem_runs hds
  rw [numbers, List.filterMap_congr hread, ← List.filterMap_map, List.filterMap_eq_filter]

/-- The numbers of candidates among the values of runs of digits. A value beyond a word is out of range. -/
def mentioned (count : Nat) (runs : List (List Char)) : List Nat :=
  (runs.map Decimal.ofDigits).filter fun n => 1 ≤ n ∧ n ≤ count ∧ n ≤ Decimal.maxWord

theorem filter_numbers (count : Nat) (reply : String) :
    (numbers reply).filter (fun n => 1 ≤ n ∧ n ≤ count) =
      mentioned count (Text.runs Decimal.isDigit reply.toList) := by
  rw [numbers_eq, List.filter_filter, mentioned]
  simp only [← Bool.decide_and, and_assoc]

/-- What a model is asked about candidates. -/
def question (template : String) (query : Query) (candidates : List Node) (most : Nat) : Prompt :=
  ⟨template, [
    ("num_chunks", toString candidates.length),
    ("context_list", numbered candidates),
    ("query_str", query.text),
    ("branching_factor", toString most)]⟩

theorem ofModel_run (hne : candidates ≠ [])
    (hreply : (model.complete (question template query candidates most)).run s = (.ok reply, s')) :
    ((ofModel model template).select query candidates most).run s =
      (.ok ((picks candidates.length most [] (numbers reply)).map fun i => (i, none)), s') := by
  have hselect : (ofModel model template).select query candidates most = if candidates.isEmpty then pure [] else do
      let reply ← (model.complete (question template query candidates most)).external
      return (picks candidates.length most [] (numbers reply)).map fun i => (i, none) := rfl
  rw [hselect, if_neg (by simpa using hne), run_bind, external_run, hreply]
  rfl

/-- A model that is asked for at least one of some candidates picks, without scores, those whose numbers its reply
mentions first, in this order. The numbers are the values of the maximal runs of digits in the reply; each counts if
it is in range and has not been mentioned before. If fewer count than are asked for, all of these are picked. -/
theorem first_mentions_are_picked (hne : candidates ≠ []) (hmost : 1 ≤ most)
    (hreply : (model.complete (question template query candidates most)).run s = (.ok reply, s')) :
    (∀ l, Text.MaximalRuns Decimal.isDigit reply.toList l ↔ l = Text.runs Decimal.isDigit reply.toList) ∧
    ((ofModel model template).select query candidates most).run s =
      (.ok (((mentioned candidates.length (Text.runs Decimal.isDigit reply.toList)).eraseDups.take most).map
        fun n => (n - 1, none)), s') := by
  refine ⟨fun l => Text.maximalRuns_iff, ?_⟩
  rw [ofModel_run hne hreply, picks_eq hmost, filter_numbers, List.map_map]
  rfl

/-- A reply with a number out of range, one said twice, one beyond a word and more numbers than asked for. -/
def ramblingReply : String := "Of 4 choices 02 fits, then 2 again; 18446744073709551618 does not, 1 and 3 would."

def rambling : LanguageModel Unit := ⟨fun _ => pure ramblingReply⟩

def threeCandidates : List Node :=
  [{ id := "a", text := "goats and milk" }, { id := "b", text := "rainwater cisterns" },
    { id := "c", text := "wood stoves" }]

theorem first_mentions_are_picked_rambling : threeCandidates ≠ [] ∧ 1 ≤ 2 ∧
    (rambling.complete (question queryTemplate { text := "water" } threeCandidates 2)).run () =
      (.ok ramblingReply, ()) ∧
    ((ofModel rambling queryTemplate).select { text := "water" } threeCandidates 2).run () =
      (.ok [(1, none), (0, none)], ()) := by
  have hne : threeCandidates ≠ [] := by simp [threeCandidates]
  obtain ⟨-, hpicked⟩ := @first_mentions_are_picked Unit 2 rambling queryTemplate { text := "water" }
    threeCandidates ramblingReply () () hne (by decide) rfl
  have hcount : threeCandidates.length = 3 := rfl
  have hmentioned : mentioned 3 (Text.runs Decimal.isDigit ramblingReply.toList) = [2, 2, 1, 3] := by decide
  rw [hcount, hmentioned] at hpicked
  exact ⟨hne, by decide, rfl, hpicked⟩

end CorpusIndex.Selector
