import CorpusIndex.Proofs.Answers.Picks
import CorpusIndex.Proofs.Forest.Siblings

/-!
# What a descent follows

`Followed` is the course of a descent below the nodes it picked at one level: which of them it went down
from and what it picked there, which nodes it met, and which of these it ended at. A descent in a
well-formed forest always takes such a course (`descend_follows`), so what its answer can be is proved of
courses, by induction on them.
-/
namespace CorpusIndex

variable {σ : Type}

/-! ### Picked nodes -/

/-- The ids at these places. -/
def idsAt (nodes : List Node) (places : List Nat) : List String :=
  places.filterMap fun i => nodes[i]?.map (·.id)

/-- Different candidates, no more than asked for. Where scores are given, all if there is room for them. -/
structure Picked (most : Nat) (scored : Bool) (candidates chosen : List String) : Prop where
  once : chosen.Nodup
  subset : chosen ⊆ candidates
  few : chosen.length ≤ most
  all : scored = true → candidates.length ≤ most → candidates ⊆ chosen

theorem Choice.picked {most : Nat} {scored : Bool} {nodes : List Node} {picks : List (Nat × Option Float32)}
    (h : Choice most scored nodes.length picks) (hnodes : (nodes.map (·.id)).Nodup) :
    Picked most scored (nodes.map (·.id)) (idsAt nodes (picks.map (·.1))) where
  once := by
    refine h.once.filterMap fun i j id hi hj => ?_
    rw [Option.mem_def, ← List.getElem?_map] at hi hj
    exact (List.getElem?_inj (List.getElem?_eq_some_iff.mp hi).1 hnodes).mp (hi.trans hj.symm)
  subset := by
    intro id hid
    obtain ⟨i, _, hi⟩ := List.mem_filterMap.mp hid
    rw [← List.getElem?_map] at hi
    exact List.mem_of_getElem? hi
  few := by
    refine (List.length_filterMap_le ..).trans ?_
    rw [List.length_map]
    exact h.few
  all := by
    rintro rfl hroom id hid
    obtain ⟨i, hi, rfl⟩ := List.getElem_of_mem hid
    rw [List.length_map] at hroom
    refine List.mem_filterMap.mpr ⟨i, h.mem_of_lt hroom (by simpa using hi), ?_⟩
    rw [← List.getElem?_map, List.getElem?_eq_getElem hi]

/-! ### What a descent adds -/

/-- The score of a node is recorded. -/
def Retrieval.Scores (out : Retrieval) (id : String) : Prop := (out.similarity.find? id).isSome = true

/-- Stored nodes with the ids `found` are new hits, and the nodes `met` are scored ones from now on where
scores are given. -/
structure Adds (store : NodeStore) (scored : Bool) (found met : List String) (out out' : Retrieval) :
    Prop where
  ids : out'.hits.map (·.node.id) = out.hits.map (·.node.id) ++ found
  backed : ∀ h ∈ out'.hits, h ∈ out.hits ∨ store.nodes.get? h.node.id = some h.node
  scores : ∀ id, out'.Scores id ↔ out.Scores id ∨ scored = true ∧ id ∈ met

namespace Adds
variable {store : NodeStore} {scored : Bool} {found found' met met' : List String} {out out' out'' : Retrieval}

theorem refl (out : Retrieval) : Adds store scored [] [] out out := ⟨by simp, fun _ => .inl, by simp⟩

theorem trans (h : Adds store scored found met out out') (h' : Adds store scored found' met' out' out'') :
    Adds store scored (found ++ found') (met ++ met') out out'' where
  ids := by rw [h'.ids, h.ids, List.append_assoc]
  backed x hx := (h'.backed x hx).elim (h.backed x) .inr
  scores id := by
    rw [h'.scores, h.scores, List.mem_append]
    tauto

/-- The node at hand is met. -/
theorem meets (hits : List Hit) (tracker : SimilarityRecord) (id : String) (score : Option Float32) :
    score.isSome = scored → Adds store scored [] [id] ⟨hits, tracker⟩ ⟨hits, match score with
      | some score => tracker.add id score
      | none => tracker⟩ := by
  rintro rfl
  refine ⟨by simp, fun _ => .inl, fun x => ?_⟩
  cases score with
  | none => simp [Retrieval.Scores]
  | some score =>
      simp only [Retrieval.Scores, SimilarityRecord.find?, SimilarityRecord.add, SortedMap.get?_insert,
        Option.isSome_some, true_and, List.mem_singleton]
      by_cases hx : x = id
      · simp [hx]
      · simp [hx, Ne.symm hx]

/-- The node at hand is a hit. -/
theorem hit (hits : List Hit) (tracker : SimilarityRecord) {n : Node} (score : Option Float32)
    (h : store.nodes.get? n.id = some n) :
    Adds store scored [n.id] [] ⟨hits, tracker⟩ ⟨hits ++ [⟨n, score⟩], tracker⟩ where
  ids := by simp
  backed x hx := by
    rcases List.mem_append.mp hx with hx | hx
    · exact .inl hx
    · cases List.mem_singleton.mp hx
      exact .inr h
  scores x := by simp [Retrieval.Scores]

end Adds

namespace Forest
open Relation

/-! ### The course of a descent -/

/-- Below the nodes `chosen` at level `depth` a descent meets the nodes `met` and ends at `found`. -/
inductive Followed (f : Forest) (r : Reach) (scored : Bool) :
    (depth : Nat) → (chosen found met : List String) → Prop
  | nil {depth : Nat} : Followed f r scored depth [] [] []
  | stop {depth : Nat} {c : String} {chosen found met : List String}
      (stops : (r.stopsAt depth || f.isLeaf c) = true) (on : Followed f r scored depth chosen found met) :
      Followed f r scored depth (c :: chosen) (c :: found) (c :: met)
  | down {depth : Nat} {c : String} {l : List (Nat × String)} {chosen found met below found' met' : List String}
      (goes : (r.stopsAt depth || f.isLeaf c) = false) (children : f.childrenOf (some c) = .ok l)
      (picked : Picked r.branchFactor scored (l.map (·.2)) below)
      (down : Followed f r scored (depth + 1) below found' met')
      (on : Followed f r scored depth chosen found met) :
      Followed f r scored depth (c :: chosen) (found' ++ found) (c :: (met' ++ met))

/-- A course from the nodes `chosen` makes the difference. -/
def Goes (f : Forest) (store : NodeStore) (r : Reach) (scored : Bool) (depth : Nat) (chosen : List String)
    (out out' : Retrieval) : Prop :=
  ∃ found met, f.Followed r scored depth chosen found met ∧ Adds store scored found met out out'

/-- Some children of `parent` are picked, and a course goes on from them. -/
def Descended (f : Forest) (store : NodeStore) (r : Reach) (scored : Bool) (parent : Option String) (depth : Nat)
    (out out' : Retrieval) : Prop :=
  ∃ l chosen, f.childrenOf parent = .ok l ∧ Picked r.branchFactor scored (l.map (·.2)) chosen ∧
    f.Goes store r scored depth chosen out out'

variable {f : Forest} {store : NodeStore} {s : Selector σ} {r : Reach} {q : Query} {scored : Bool}
  {E : Failure → Prop} {parent : Option String} {depth fuel : Nat}

theorem atLevel_roots (f : Forest) : f.AtLevel none 0 := rfl

/-- The candidates of a level are stored nodes, all different. -/
theorem level_candidates (w : f.WellFormed) (k : store.Keyed)
    (stored : ∀ id ∈ f.nodeIds, store.contains id = true) (hlevel : f.AtLevel parent depth) :
    ∃ l nodes, f.childrenOf parent = .ok l ∧ store.resolveAll (l.map (·.2)) = .ok nodes ∧
      nodes.map (·.id) = l.map (·.2) ∧ (nodes.map (·.id)).Nodup ∧
      ∀ n ∈ nodes, store.nodes.get? n.id = some n ∧
        ∃ p, f.nodes.get? p = some n.id ∧ f.IsChild parent p ∧ f.Depth p depth := by
  obtain ⟨l, hl, hdepth⟩ := childrenOf_of_walkable (checked_of_validate w.validate) w.walkable hlevel
  have hsiblings := (childrenOf_eq_ok.mp hl).2
  have hstored : ∀ id ∈ l.map (·.2), store.contains id = true := by
    intro id hid
    obtain ⟨x, hx, rfl⟩ := List.mem_map.mp hid
    exact stored x.2 (SortedMap.mem_values.mpr ⟨x.1, (hdepth x hx).1⟩)
  obtain ⟨nodes, hnodes, hids⟩ := NodeStore.resolveAll_of_keyed k hstored
  refine ⟨l, nodes, hl, hnodes, hids, ?_, fun n hn => ⟨?_, ?_⟩⟩
  · rw [hids]
    exact InOrder.nodup w.toWired ⟨l, hsiblings.toAscending, rfl⟩
  · obtain ⟨id, _, hid⟩ := mem_of_mapM_eq_ok hnodes hn
    have hget := NodeStore.resolve_eq_ok.mp hid
    cases k id n hget
    exact hget
  · obtain ⟨x, hx, hid⟩ := List.mem_map.mp (hids ▸ List.mem_map_of_mem hn)
    rw [← hid]
    exact ⟨x.1, (hdepth x hx).1, (hsiblings.children x.1).mpr (List.mem_map_of_mem hx), (hdepth x hx).2⟩

/-- A descent in a well-formed forest of stored nodes takes a course, and fails only as the selector
does. -/
theorem descend_follows (w : f.WellFormed) (k : store.Keyed)
    (stored : ∀ id ∈ f.nodeIds, store.contains id = true) (hs : s.Chooses scored E)
    (hbranch : 1 ≤ r.branchFactor) (hlevel : f.AtLevel parent depth) (hfuel : f.size < fuel + depth)
    (out : Retrieval) : Ends (f.descend store s r q fuel parent depth out)
      (f.Descended store r scored parent depth out) E := by
  induction fuel generalizing parent depth out with
  | zero =>
      -- no level is as deep as there are nodes
      have hd : depth ≤ f.size := by
        cases parent with
        | none => exact hlevel ▸ Nat.zero_le _
        | some id =>
            obtain ⟨p, e, _, hd, rfl⟩ := hlevel
            exact w.depth_lt_size hd
      omega
  | succ fuel ih =>
      obtain ⟨l, nodes, hl, hnodes, hids, honce, hstands⟩ := level_candidates w k stored hlevel
      unfold descend
      refine Ends.bind_ok hl (Ends.bind_ok hnodes (Ends.bind (hs q nodes r.branchFactor hbranch) ?_))
      intro picks hpicks
      refine (Ends.foldlM_chain (S := fun picks => f.Goes store r scored depth (idsAt nodes (picks.map (·.1))))
        (fun out => ⟨[], [], .nil, .refl out⟩) ?_ out).imp
        (fun out' h => ⟨l, _, hl, hids ▸ hpicks.picked honce, h⟩) fun _ h => h
      intro pick hpick out
      split
      next hnone =>
        refine Ends.pure fun rest out' h => ?_
        simpa only [idsAt, List.map_cons, List.filterMap_cons, hnone, Option.map_none] using h
      next child hchild =>
        have hcons (rest : List (Nat × Option Float32)) : idsAt nodes ((pick :: rest).map (·.1)) =
            child.id :: idsAt nodes (rest.map (·.1)) := by
          simp only [idsAt, List.map_cons, List.filterMap_cons, hchild, Option.map_some]
        obtain ⟨hget, p, hp, _, hd⟩ := hstands child (List.mem_of_getElem? hchild)
        have hlevel' : f.AtLevel (some child.id) (depth + 1) := ⟨p, depth, hp, hd, rfl⟩
        have hmeets : Adds store scored [] [child.id] out _ :=
          Adds.meets out.hits out.similarity child.id pick.2 (hpicks.scores pick hpick)
        simp only [hcons]
        split
        next hstops =>
          refine Ends.pure ?_
          rintro rest out' ⟨found, met, hon, hadds⟩
          exact ⟨_, _, .stop hstops hon, (hmeets.trans (.hit _ _ pick.2 hget)).trans hadds⟩
        next hgoes =>
          refine (ih hlevel' (by omega) _).imp ?_ fun _ h => h
          rintro mid ⟨l', below, hl', hbelow, found', met', hdown, hadds'⟩ rest out' ⟨found, met, hon, hadds⟩
          exact ⟨_, _, .down (by simpa using hgoes) hl' hbelow hdown hon, (hmeets.trans hadds').trans hadds⟩

/-- A search that descends at all starts with the roots. -/
theorem retrieve_descent (hbranch : 1 ≤ r.branchFactor) (hlimit : r.depthLimit ≠ some 0) :
    f.retrieve store (.descent s) r q =
      if f.isEmpty then pure {} else f.descend store s r q f.depthBound none 0 {} := by
  have hzero : r.branchFactor ≠ 0 := by omega
  unfold retrieve
  simp only [hzero, hlimit, if_false]

end Forest
end CorpusIndex
