import CorpusIndex.Proofs.Answers.Descent
import CorpusIndex.Proofs.Embedding.Ranking
import CorpusIndex.Proofs.Replies.Numbers
import CorpusIndex.Proofs.Vectors.Retrieval

/-!
# What selectors pick

Whatever a language model replies, the places read off it are distinct, in range and no more than asked
for. Comparing embeddings picks as many of the best candidates as there is room for, each with its score.
Both fail only as their collaborators do.
-/
namespace CorpusIndex

variable {σ α : Type} {count most i n : Nat} {ns : List Nat} {scored : Bool} {E : Failure → Prop}
  {e : Embedder σ}

/-- Places of different candidates, no more than asked for. Where scores are given each has one, and as
many are picked as there is room for. -/
structure Choice (most : Nat) (scored : Bool) (count : Nat) (picks : List (Nat × Option Float32)) :
    Prop where
  once : (picks.map (·.1)).Nodup
  inRange : ∀ i ∈ picks.map (·.1), i < count
  few : picks.length ≤ most
  scores : ∀ p ∈ picks, p.2.isSome = scored
  many : scored = true → picks.length = min most count

theorem Choice.nothing (most : Nat) (scored : Bool) : Choice most scored 0 [] :=
  ⟨by simp, by simp, by simp, by simp, by simp⟩

/-- Scored picks leave no candidate out where there is room for all. -/
theorem Choice.mem_of_lt {picks : List (Nat × Option Float32)} (h : Choice most true count picks)
    (hroom : count ≤ most) (hi : i < count) : i ∈ picks.map (·.1) := by
  have hsub : picks.map (·.1) ⊆ List.range count := fun j hj => List.mem_range.mpr (h.inRange j hj)
  have hlength : (List.range count).length ≤ (picks.map (·.1)).length := by
    rw [List.length_range, List.length_map, h.many rfl]
    omega
  exact ((h.once.subperm hsub).perm_of_length_le hlength).mem_iff.mpr (List.mem_range.mpr hi)

/-- The selector makes such choices of any candidates, and fails only in `E`. -/
def Selector.Chooses (s : Selector σ) (scored : Bool) (E : Failure → Prop) : Prop :=
  ∀ q candidates most, 1 ≤ most → Ends (s.select q candidates most) (Choice most scored candidates.length) E

/-- The failure is one of a collaborator. -/
def FromOutside (e : Failure) : Prop := ∃ cause, e = .external cause

theorem external_ends (c : Call σ α) : Ends c.external (fun _ => True) FromOutside := by
  intro s
  rw [external_run]
  rcases c.run s with ⟨r, s'⟩
  cases r with
  | ok x => trivial
  | error f => exact ⟨.fault f, rfl⟩

/-! ### Replies of a language model -/

/-- The model fails only in `E`. -/
def LanguageModel.FailsIn (model : LanguageModel σ) (E : Failure → Prop) : Prop :=
  ∀ prompt, Ends (model.complete prompt).external (fun _ => True) E

theorem LanguageModel.failsIn_outside (model : LanguageModel σ) : model.FailsIn FromOutside :=
  fun _ => external_ends _

namespace Selector

theorem of_mem_first_candidates (h : n ∈ (ns.filter fun n => 1 ≤ n ∧ n ≤ count).eraseDups.take most) :
    1 ≤ n ∧ n ≤ count := by
  have hin := List.mem_eraseDups.mp (List.mem_of_mem_take h)
  simpa using (List.mem_filter.mp hin).2

theorem picks_nodup (hmost : 1 ≤ most) (ns : List Nat) : (picks count most [] ns).Nodup := by
  rw [picks_eq hmost]
  refine List.Nodup.map_on (fun m hm n hn heq => ?_) ((eraseDups_nodup _).sublist (List.take_sublist most _))
  have hm := of_mem_first_candidates hm
  have hn := of_mem_first_candidates hn
  omega

theorem lt_of_mem_picks (hmost : 1 ≤ most) (hi : i ∈ picks count most [] ns) : i < count := by
  rw [picks_eq hmost] at hi
  obtain ⟨n, hn, rfl⟩ := List.mem_map.mp hi
  have hn := of_mem_first_candidates hn
  omega

theorem length_picks_le (hmost : 1 ≤ most) (ns : List Nat) : (picks count most [] ns).length ≤ most := by
  rw [picks_eq hmost, List.length_map]
  exact List.length_take_le ..

theorem ofModel_chooses {model : LanguageModel σ} (h : model.FailsIn E) (template : String) :
    (ofModel model template).Chooses false E := by
  intro q candidates most hmost
  unfold ofModel
  dsimp only
  split
  next hnone =>
    rw [List.isEmpty_iff.mp hnone]
    exact Ends.pure (Choice.nothing most false)
  next =>
    refine Ends.bind (h _) fun reply _ => Ends.pure ?_
    have hplaces (l : List Nat) : (l.map fun i => (i, (none : Option Float32))).map (·.1) = l :=
      List.map_map.trans (List.map_id l)
    constructor
    · rw [hplaces]
      exact picks_nodup hmost _
    · rw [hplaces]
      exact fun i => lt_of_mem_picks hmost
    · rw [List.length_map]
      exact length_picks_le hmost _
    · simp
    · rintro ⟨⟩

end Selector

/-! ### Embeddings -/

theorem length_nearest {candidates : List (α × Embedding)} (query : Embedding) :
    (nearest query candidates most none).length = min most candidates.length := by
  simp [nearest, byScore]

theorem length_filled (nodes : List Node) (fresh : List Embedding) :
    (Embedder.embedNodes.filled nodes fresh).length = nodes.length := by
  fun_induction Embedder.embedNodes.filled nodes fresh with
  | case1 => rfl
  | case2 n rest v fresh _ ih => simp [ih]
  | case3 n rest v fresh _ ih => simp [ih]
  | case4 n rest _ ih => simp [ih]

/-- The embedder fails only in `E`, and gives one vector for each text unless any fault is in `E`. -/
def Embedder.FailsIn (e : Embedder σ) (E : Failure → Prop) : Prop :=
  ∀ texts, Ends (e.embedBatch texts).external
    (fun vs => vs.length = texts.length ∨ ∀ fault, E (.external (.fault fault))) E

theorem Embedder.failsIn_outside (e : Embedder σ) : e.FailsIn FromOutside := fun texts =>
  (external_ends (e.embedBatch texts)).imp (fun _ _ => .inr fun fault => ⟨.fault fault, rfl⟩) fun _ h => h

section Embed
variable (h : e.FailsIn E)
include h

theorem Embedder.embedQuery_ends (text : String) : Ends (e.embedQuery text).external (fun _ => True) E := by
  intro s
  have hs := h [text] s
  rw [external_run] at hs ⊢
  rw [embedQuery, run_bind]
  rcases hr : (e.embedBatch [text]).run s with ⟨r, s'⟩
  rw [hr] at hs
  cases r with
  | error f => exact hs
  | ok vs =>
      cases vs with
      | nil =>
          have hfault := Or.resolve_left hs (by simp)
          exact hfault .noQueryVector
      | cons v vs =>
          dsimp only
          rw [List.getLast?_cons]
          trivial

theorem Query.embed_ends (q : Query) : Ends (q.embed e) (fun _ => True) E := by
  unfold Query.embed
  split
  · exact Ends.pure trivial
  · exact Embedder.embedQuery_ends h _

theorem Embedder.embedNodes_ends (nodes : List Node) :
    Ends (e.embedNodes nodes) (fun vs => vs.length = nodes.length) E := by
  let missing := (nodes.filter (·.embedding.isNone)).map (·.text)
  have hgaps (fresh : List Embedding)
      (hfresh : fresh.length = missing.length ∨ ∀ fault, E (.external (.fault fault))) : Ends (do
        if fresh.length ≠ missing.length then
          throw (.external (.fault (.vectorCount fresh.length missing.length)))
        return Embedder.embedNodes.filled nodes fresh : Action σ (List Embedding))
        (fun vs => vs.length = nodes.length) E := by
    by_cases hcount : fresh.length = missing.length
    · rw [if_neg (not_not.mpr hcount)]
      exact Ends.pure (length_filled nodes fresh)
    · exact Ends.refuse (f := fun _ => pure _) (hfresh.resolve_left hcount _)
        (Ends.pure (length_filled nodes fresh))
  unfold Embedder.embedNodes
  dsimp only
  split
  next hnone =>
    refine Ends.bind (P := fun fresh => fresh = []) (Ends.pure rfl) fun fresh hfresh => hgaps fresh (.inl ?_)
    rw [hfresh, show missing = [] from List.isEmpty_iff.mp hnone]
    rfl
  next => exact Ends.bind (h missing) hgaps

theorem Selector.byEmbedding_chooses : (byEmbedding e).Chooses true E := by
  intro q candidates most hmost
  unfold byEmbedding
  dsimp only
  split
  next hnone =>
    rw [List.isEmpty_iff.mp hnone]
    exact Ends.pure (Choice.nothing most true)
  next =>
    refine Ends.bind (q.embed_ends h) fun v _ => ?_
    refine Ends.bind (Embedder.embedNodes_ends h candidates) fun vs hvs => Ends.pure ?_
    let numbered := vs.zipIdx.map fun c => (c.2, c.1)
    have hnumbers : numbered.map (·.1) = List.range candidates.length := by
      simp [numbered, ← hvs, List.zipIdx_map_snd, List.range_eq_range', Function.comp_def]
    have hplaces : ((nearest v numbered most none).map fun r => (r.1, some r.2)).map (·.1) =
        (nearest v numbered most none).map (·.1) := by simp
    have hlength : ((nearest v numbered most none).map fun r => (r.1, some r.2)).length =
        min most candidates.length := by
      rw [List.length_map, length_nearest, List.length_map, List.length_zipIdx, hvs]
    constructor
    · rw [hplaces]
      exact nearest_nodup (hnumbers ▸ List.nodup_range)
    · rw [hplaces]
      intro i hi
      obtain ⟨x, hx, rfl⟩ := List.mem_map.mp hi
      exact List.mem_range.mp (hnumbers ▸ mem_nearest hx)
    · exact hlength.trans_le (min_le_left ..)
    · exact List.forall_mem_map.mpr fun _ _ => rfl
    · exact fun _ => hlength

end Embed

/-! ### Searches -/

/-- The selector is one of those that searches use, and what it asks fails only in `E`. -/
inductive Selector.Searches (E : Failure → Prop) : Selector σ → Prop
  | model {model : LanguageModel σ} (fails : model.FailsIn E) : Searches E (forQuery model)
  | embedding {e : Embedder σ} (fails : e.FailsIn E) : Searches E (byEmbedding e)

theorem Selector.Searches.chooses {s : Selector σ} (h : s.Searches E) : ∃ scored, s.Chooses scored E := by
  cases h with
  | model fails => exact ⟨false, ofModel_chooses fails queryTemplate⟩
  | embedding fails => exact ⟨true, byEmbedding_chooses fails⟩

end CorpusIndex
