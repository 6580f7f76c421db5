import CorpusIndex.Proofs.Action
import CorpusIndex.Proofs.Embedding.Ranking
import CorpusIndex.Proofs.Postings
import CorpusIndex.Retrieve.Keywords
import Mathlib.Data.List.Count

/-!
# Answers by keyword

The nodes filed under the keywords of a query are counted, and ranked by their counts and then by their ids.
There is one such ranking, whatever order the keywords and the counted nodes come in.
-/
namespace CorpusIndex.KeywordTable

variable {t : KeywordTable} {store : NodeStore} {keywords answer : List String} {id : String}

/-! ### Counting -/

/-- How many of the keywords a node is filed under. One that is listed twice counts twice. -/
def tally (t : KeywordTable) (keywords : List String) (id : String) : ℕ :=
  keywords.countP fun k => (t.table.under k).contains id

theorem get?_counted (ids : List String) (m : SortedMap String ℕ) (id : String) :
    (ids.foldl (fun m id => m.update id 0 (· + 1)) m).get? id =
      if id ∈ ids then some (m.getD id 0 + ids.count id) else m.get? id := by
  induction ids generalizing m with
  | nil => rfl
  | cons i ids ih =>
      rw [List.foldl_cons, ih, SortedMap.update, List.count_cons]
      by_cases hi : i = id
      · subst hi
        rw [SortedMap.getD_eq, SortedMap.get?_insert_self, if_pos List.mem_cons_self, beq_self_eq_true,
          if_pos rfl, Option.getD_some]
        split
        next => rw [Nat.add_assoc, Nat.add_comm 1]
        next hout => rw [List.count_eq_zero_of_not_mem hout]
      · have hmem : id ∈ i :: ids ↔ id ∈ ids := List.mem_cons.trans (or_iff_right (Ne.symm hi))
        have hne : (i == id) = false := beq_eq_false_iff_ne.mpr hi
        rw [SortedMap.getD_eq, SortedMap.get?_insert_of_ne _ _ (Ne.symm hi), hne, if_neg Bool.false_ne_true,
          Nat.add_zero, SortedMap.getD_eq]
        simp only [hmem]

theorem count_postings (t : KeywordTable) (keywords : List String) (id : String) :
    (keywords.flatMap t.table.under).count id = t.tally keywords id := by
  induction keywords with
  | nil => rfl
  | cons k keywords ih =>
      have hnd : (t.table.under k).Nodup := SortedSet.elems_nodup _
      rw [List.flatMap_cons, List.count_append, ih, hnd.count, tally, tally, List.countP_cons, Nat.add_comm]
      simp only [List.contains_iff_mem]

theorem tally_pos : 0 < t.tally keywords id ↔ ∃ k ∈ keywords, id ∈ t.table.under k := by
  simp only [tally, List.countP_pos_iff, List.contains_iff_mem]

theorem get?_counts (t : KeywordTable) (keywords : List String) (id : String) :
    (t.counts keywords).get? id = if 0 < t.tally keywords id then some (t.tally keywords id) else none := by
  have hmem : id ∈ keywords.flatMap t.table.under ↔ 0 < t.tally keywords id := by
    rw [List.mem_flatMap, tally_pos]
  rw [counts, get?_counted, count_postings]
  simp only [hmem, SortedMap.getD_eq, SortedMap.get?_emptyCollection, Option.getD_none, Nat.zero_add]

/-- Unknown keywords have no postings. -/
theorem tally_known (t : KeywordTable) (keywords : List String) (id : String) :
    t.tally (keywords.filter t.hasKeyword) id = t.tally keywords id := by
  rw [tally, List.countP_filter]
  refine List.countP_congr fun k _ => ?_
  rw [Bool.and_eq_true, and_iff_left_iff_imp, List.contains_iff_mem]
  intro hin
  have hsome : (t.table.get? k).isSome = true := by
    by_contra hnone
    rw [Postings.under, SortedMap.getD_eq, Option.not_isSome_iff_eq_none.mp hnone] at hin
    exact absurd hin (by simp)
  exact hsome

theorem counts_congr (h : ∀ id, t.tally keywords id = t.tally answer id) :
    t.counts keywords = t.counts answer :=
  SortedMap.ext_get? fun id => by rw [get?_counts, get?_counts, h]

/-! ### Ranking -/

/-- `a` is filed under more of the keywords than `b`, or under as many and has the smaller id. -/
def Outranks (a b : String × ℕ) : Prop := b.2 < a.2 ∨ b.2 = a.2 ∧ a.1 < b.1

instance : DecidableRel Outranks := fun a b => inferInstanceAs (Decidable (b.2 < a.2 ∨ b.2 = a.2 ∧ a.1 < b.1))

/-- The nodes filed under a keyword, each with the number of keywords it is filed under, best first. -/
structure IsRanking (t : KeywordTable) (keywords : List String) (ranking : List (String × ℕ)) : Prop where
  posted : ∀ id, id ∈ ranking.map (·.1) ↔ ∃ k ∈ keywords, id ∈ t.table.under k
  counted : ∀ r ∈ ranking, r.2 = t.tally keywords r.1
  ordered : ranking.Pairwise Outranks

/-- The comparison by count, the greater one first, and then by id. -/
def byTally (a b : String × ℕ) : Ordering := (compare b.2 a.2).then (compare a.1 b.1)

instance : Std.TransCmp byTally :=
  inferInstanceAs (Std.TransCmp (compareLex (fun a b : String × ℕ => compareOn Prod.snd b a) (compareOn Prod.fst)))

instance : Std.LawfulEqCmp byTally where
  compare_self := Std.ReflCmp.compare_self
  eq_of_compare {a b} h := by
    obtain ⟨hcount, hid⟩ := Ordering.then_eq_eq.mp h
    exact Prod.ext (Std.LawfulEqOrd.eq_of_compare hid) (Std.LawfulEqOrd.eq_of_compare hcount).symm

theorem Outranks.isLE {a b : String × ℕ} (h : Outranks a b) : (byTally a b).isLE = true := by
  rcases h with hlt | ⟨heq, hlt⟩
  · rw [byTally, Nat.compare_eq_lt.mpr hlt]
    rfl
  · have hid : compare a.1 b.1 = .lt := compareOfLessAndEq_eq_lt.mpr hlt
    rw [byTally, heq, Nat.compare_eq_eq.mpr rfl, hid]
    rfl

/-- All counted nodes, ranked. -/
def ranking (t : KeywordTable) (keywords : List String) : List (String × ℕ) :=
  (t.counts keywords).toList.mergeSort fun a b => b.2 ≤ a.2

theorem ranked_eq (t : KeywordTable) (keywords : List String) (most : ℕ) :
    t.ranked keywords most = (t.ranking keywords).take most := rfl

theorem mem_ranking {r : String × ℕ} :
    r ∈ t.ranking keywords ↔ r.2 = t.tally keywords r.1 ∧ 0 < r.2 := by
  obtain ⟨id, count⟩ := r
  rw [ranking, List.mem_mergeSort, ← SortedMap.get?_eq_some_iff, get?_counts]
  dsimp only
  split
  next hpos =>
    rw [Option.some.injEq, eq_comm]
    exact ⟨fun h => ⟨h, h ▸ hpos⟩, fun h => h.1⟩
  next hnone =>
    refine iff_of_false (by simp) ?_
    rintro ⟨rfl, hpos⟩
    exact hnone hpos

theorem Outranks.ne {a b : String × ℕ} (h : Outranks a b) : a ≠ b := by
  rintro rfl
  exact h.elim (Nat.lt_irrefl _) fun htie => String.lt_irrefl _ htie.2

namespace IsRanking
variable {ranking ranking' : List (String × ℕ)}

theorem mem_iff (h : t.IsRanking keywords ranking) {r : String × ℕ} :
    r ∈ ranking ↔ r.2 = t.tally keywords r.1 ∧ ∃ k ∈ keywords, r.1 ∈ t.table.under k := by
  constructor
  · exact fun hr => ⟨h.counted r hr, (h.posted r.1).mp (List.mem_map_of_mem hr)⟩
  · rintro ⟨hcount, hposted⟩
    obtain ⟨r', hr', hid⟩ := List.mem_map.mp ((h.posted r.1).mpr hposted)
    have hsame : r' = r := Prod.ext hid (by rw [h.counted r' hr', hid, hcount])
    exact hsame ▸ hr'

theorem mergeSort_eq (h : t.IsRanking keywords ranking) (hperm : ranking'.Perm ranking) :
    ranking'.mergeSort (fun a b => (byTally a b).isLE) = ranking :=
  mergeSort_eq_of_perm hperm (h.ordered.imp Outranks.isLE)

/-- The keywords and the postings leave no choice. -/
theorem unique (h : t.IsRanking keywords ranking) (h' : t.IsRanking keywords ranking') :
    ranking = ranking' := by
  have hperm : ranking.Perm ranking' := by
    refine (List.perm_ext_iff_of_nodup (h.ordered.imp Outranks.ne) (h'.ordered.imp Outranks.ne)).mpr fun r => ?_
    rw [h.mem_iff, h'.mem_iff]
  exact (h.mergeSort_eq (List.Perm.refl _)).symm.trans (h'.mergeSort_eq hperm)

end IsRanking

theorem isRanking (t : KeywordTable) (keywords : List String) : t.IsRanking keywords (t.ranking keywords) := by
  refine ⟨fun id => ?_, fun r hr => (mem_ranking.mp hr).1, ?_⟩
  · rw [← tally_pos, List.mem_map]
    constructor
    · rintro ⟨r, hr, rfl⟩
      obtain ⟨hcount, hpos⟩ := mem_ranking.mp hr
      exact hcount ▸ hpos
    · exact fun hpos => ⟨(id, t.tally keywords id), mem_ranking.mpr ⟨rfl, hpos⟩, rfl⟩
  · have hids : (t.counts keywords).toList.Pairwise fun a b => a.1 < b.1 :=
      (t.counts keywords).sorted.imp compareOfLessAndEq_eq_lt.mp
    refine (pairwise_mergeSort_then (fun a b c hab hbc => ?_) (fun a b => ?_) hids).imp fun hab => ?_
    · rw [decide_eq_true_iff] at *
      exact hbc.trans hab
    · rw [Bool.or_eq_true, decide_eq_true_iff, decide_eq_true_iff]
      exact le_total ..
    · rw [decide_eq_true_iff, decide_eq_true_iff] at hab
      exact (lt_or_eq_of_le hab.1).imp_right fun heq => ⟨heq, hab.2 heq.ge⟩

/-! ### Retrieval -/

/-- The hit is the stored node, and the count is its score. -/
def Shows (store : NodeStore) (r : String × ℕ) (hit : Hit) : Prop :=
  store.nodes.get? r.1 = some hit.node ∧ hit.score = some r.2.toUInt64.toFloat32

/-- The hit for a counted node. -/
def hitOf (store : NodeStore) (r : String × ℕ) : Hit :=
  { node := (store.nodes.get? r.1).getD default, score := some r.2.toUInt64.toFloat32 }

theorem matchedKeywords_run {σ : Type} {x : KeywordExtractor σ} {text : String} {most : ℕ} {s : σ}
    (h : ((x.keywords text most).run s).1 = .ok answer) :
    ((t.matchedKeywords x most text).run s).1 = .ok (answer.filter t.hasKeyword) := by
  obtain ⟨s', hrun⟩ := run_bind_of_ok (external_run_of_ok h)
    fun found => pure (found.filter t.hasKeyword)
  rw [matchedKeywords, hrun]
  rfl

/-- Ranked nodes are filed somewhere. -/
theorem mem_nodeIds_of_ranking {r : String × ℕ} (h : r ∈ t.ranking keywords) : r.1 ∈ t.table.nodeIds := by
  obtain ⟨hcount, hpos⟩ := mem_ranking.mp h
  obtain ⟨k, _, hin⟩ := tally_pos.mp (hcount ▸ hpos)
  exact Postings.mem_nodeIds_of_under hin

theorem shows_hitOf (stored : ∀ id ∈ t.nodeIds, store.contains id = true) {r : String × ℕ}
    (h : r ∈ t.ranking keywords) : Shows store r (hitOf store r) := by
  have hin := SortedSet.mem_elems.mpr (mem_nodeIds_of_ranking h)
  obtain ⟨n, hn⟩ := NodeStore.contains_iff.mp (stored r.1 hin)
  exact ⟨by rw [hn, hitOf, hn]; rfl, rfl⟩

theorem retrieve_run {σ : Type} (stored : ∀ id ∈ t.nodeIds, store.contains id = true)
    {x : KeywordExtractor σ} {limits : KeywordLimits} {q : Query} {s : σ} (hperm : answer.Perm keywords)
    (h : ((x.keywords q.text limits.keywords).run s).1 = .ok answer) :
    ((t.retrieve store x limits q).run s).1 =
      .ok { hits := ((t.ranking keywords).map (hitOf store)).take limits.nodes } := by
  have hranking : t.ranking (answer.filter t.hasKeyword) = t.ranking keywords := by
    have hcounts : t.counts (answer.filter t.hasKeyword) = t.counts keywords :=
      counts_congr fun id => (t.tally_known answer id).trans (hperm.countP_eq _)
    rw [ranking, hcounts, ranking]
  unfold retrieve
  split
  next hempty =>
    have hnil : t.ranking keywords = [] := by
      refine List.eq_nil_iff_forall_not_mem.mpr fun r hr => ?_
      obtain ⟨k, ids, hk, _⟩ := Postings.mem_nodeIds.mp (mem_nodeIds_of_ranking hr)
      rw [SortedMap.isEmpty_iff.mp hempty k] at hk
      cases hk
    rw [hnil, List.map_nil, List.take_nil]
    rfl
  next =>
    obtain ⟨s₁, hmatched⟩ := run_bind_of_ok (matchedKeywords_run (t := t) h) fun known => do
      let hits ← (t.ranked known limits.nodes).mapM fun r => do
        return { node := ← store.resolve r.1, score := some r.2.toUInt64.toFloat32 : Hit }
      return ({ hits } : Retrieval)
    rw [hmatched, ranked_eq, hranking, ← List.map_take]
    have hhits : ∀ r ∈ (t.ranking keywords).take limits.nodes, ∀ s : σ, ((do
        return { node := ← store.resolve r.1, score := some r.2.toUInt64.toFloat32 } : Action σ Hit).run s).1 =
          .ok (hitOf store r) := by
      intro r hr s
      have hnode := (shows_hitOf stored (List.mem_of_mem_take hr)).1
      rw [NodeStore.resolve_eq_ok.mpr hnode]
      rfl
    obtain ⟨s₂, hhits⟩ := run_bind_of_ok (mapM_run hhits s₁) fun hits => pure ({ hits } : Retrieval)
    rw [hhits]
    rfl

/-- Retrieval by keyword over a table whose nodes are stored. There is one ranking of the nodes filed under the
keywords of an answer, by the number of these keywords and then by id. The best of them are shown, as many as are
wanted, with that number as their score, whichever extractor gives the answer and in whatever order it lists the
keywords; and however the counted nodes are listed, sorting them gives the ranking. -/
theorem hits_rank_by_tally (stored : ∀ id ∈ t.nodeIds, store.contains id = true) (keywords : List String) :
    ∃ ranking hits, (∀ r, t.IsRanking keywords r ↔ r = ranking) ∧ List.Forall₂ (Shows store) ranking hits ∧
      (∀ counted : List (String × ℕ), counted.Perm ranking →
        counted.mergeSort (fun a b => (byTally a b).isLE) = ranking) ∧
      ∀ (σ : Type) (x : KeywordExtractor σ) (limits : KeywordLimits) (q : Query) (s : σ) (answer : List String),
        answer.Perm keywords → ((x.keywords q.text limits.keywords).run s).1 = .ok answer →
          ((t.retrieve store x limits q).run s).1 = .ok { hits := hits.take limits.nodes } := by
  have hranking := t.isRanking keywords
  have hone (r : List (String × ℕ)) : t.IsRanking keywords r ↔ r = t.ranking keywords :=
    ⟨fun hr => hr.unique hranking, fun heq => heq ▸ hranking⟩
  have hshows : List.Forall₂ (Shows store) (t.ranking keywords) ((t.ranking keywords).map (hitOf store)) := by
    rw [List.forall₂_map_right_iff]
    exact List.forall₂_same.mpr fun r hr => shows_hitOf stored hr
  refine ⟨_, _, hone, hshows, fun _ => hranking.mergeSort_eq, ?_⟩
  exact fun σ x limits q s answer hperm h => retrieve_run stored hperm h

def borrowing : KeywordTable where
  id := "kw"
  table := .ofList [("borrowing", .ofElems ["n1", "n2"]), ("lifetimes", .ofElems ["n2"]),
    ("rules", .ofElems ["n3"])]

def borrowingStore : NodeStore where
  nodes := .ofList [("n1", { id := "n1", text := "" }), ("n2", { id := "n2", text := "" }),
    ("n3", { id := "n3", text := "" })]

theorem borrowing_isRanking :
    borrowing.IsRanking ["rust", "rules", "lifetimes", "borrowing"] [("n2", 2), ("n1", 1), ("n3", 1)] where
  posted id := by
    have hrust : borrowing.table.under "rust" = [] := by decide
    have hrules : borrowing.table.under "rules" = ["n3"] := by decide
    have hlifetimes : borrowing.table.under "lifetimes" = ["n2"] := by decide
    have hborrowing : borrowing.table.under "borrowing" = ["n1", "n2"] := by decide
    simp only [List.mem_cons, List.not_mem_nil, or_false, or_and_right, exists_or, exists_eq_left, hrust, hrules,
      hlifetimes, hborrowing, List.map_cons, List.map_nil]
    tauto
  counted := by decide
  ordered := by decide

/-- The node filed under two keywords comes first, and the others by their ids. The table does not know `rust`. -/
theorem hits_rank_by_tally_borrowing : (∀ id ∈ borrowing.nodeIds, borrowingStore.contains id = true) ∧
    ∃ hits : List Hit, hits.map (fun h => (h.node.id, h.score)) =
        [("n2", some (UInt64.toFloat32 2)), ("n1", some (UInt64.toFloat32 1)), ("n3", some (UInt64.toFloat32 1))] ∧
      ∀ answer : List String, answer.Perm ["rust", "rules", "lifetimes", "borrowing"] → ∀ nodes,
        ((borrowing.retrieve borrowingStore ⟨fun _ _ => pure answer⟩ { nodes } { text := "" }).run ()).1 =
          .ok { hits := hits.take nodes } := by
  have hstored : ∀ id ∈ borrowing.nodeIds, borrowingStore.contains id = true := by decide
  obtain ⟨ranking, hits, hunique, hshows, _, hrun⟩ :=
    hits_rank_by_tally hstored ["rust", "rules", "lifetimes", "borrowing"]
  refine ⟨hstored, hits, ?_, fun answer hperm nodes => hrun Unit _ { nodes } _ () answer hperm rfl⟩
  obtain rfl := (hunique _).mp borrowing_isRanking
  rcases hshows with _ | ⟨⟨hn2, hs2⟩, _ | ⟨⟨hn1, hs1⟩, _ | ⟨⟨hn3, hs3⟩, _ | _⟩⟩⟩
  rw [List.map_cons, List.map_cons, List.map_cons, List.map_nil, hs2, hs1, hs3, ← Option.some.inj hn2,
    ← Option.some.inj hn1, ← Option.some.inj hn3]
  rfl

end CorpusIndex.KeywordTable
