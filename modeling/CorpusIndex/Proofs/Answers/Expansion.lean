import CorpusIndex.Proofs.Answers.Neighbours
import CorpusIndex.Proofs.Chains

/-!
# Hits with their neighbours in any store

Links may lead anywhere, and hits need not be stored nor differ. A walk from a hit stops where it would give a
node twice, so that it never gives more nodes than are stored. What an expansion gives is each hit and each node
of the walks once; where it fails, a link leads to no node, or the previous links of a node come back.
-/
namespace CorpusIndex

/-- The links that a mode follows. -/
inductive NeighbourMode.Follows (mode : NeighbourMode) : (Node → Option String) → Prop
  | next : mode.forward = true → mode.Follows Node.next?
  | previous : mode.backward = true → mode.Follows Node.previous?

namespace Postprocessor

variable {store : NodeStore} {step : Node → Option String} {mode : NeighbourMode} {count : ℕ}
  {seen : List String} {n m : Node} {nodes l : List Node} {hits out : List Hit} {id : String} {f : Failure}

/-- At most `count` links that the mode follows lead from `n` to `m`. -/
def Reached (store : NodeStore) (mode : NeighbourMode) (count : ℕ) (n m : Node) : Prop :=
  ∃ step, mode.Follows step ∧ ∃ k, 0 < k ∧ k ≤ count ∧ store.along step n k = some m

/-- One of the first `count` links that the mode follows from `n` leads to the id, and no node has it. -/
def Dangles (store : NodeStore) (mode : NeighbourMode) (count : ℕ) (n : Node) (id : String) : Prop :=
  ∃ step, mode.Follows step ∧ ∃ k x, k < count ∧ store.along step n k = some x ∧ step x = some id ∧
    store.nodes.get? id = none

/-! ### Walks -/

/-- A walk stops, or a link leads it to a node it has not met. -/
theorem walk_succ_eq_ok (h : walk store step (count + 1) seen n = .ok l) : l = [] ∨
    ∃ m rest, store.target step n = some m ∧ m.id ∉ seen ∧
      walk store step count (m.id :: seen) m = .ok rest ∧ l = m :: rest := by
  unfold walk at h
  cases hlink : step n with
  | none =>
      rw [hlink] at h
      cases h
      exact .inl rfl
  | some id =>
      rw [hlink] at h
      obtain ⟨m, hm, h⟩ := bind_eq_ok.mp h
      have htarget : store.target step n = some m :=
        NodeStore.target_eq_some.mpr ⟨id, hlink, NodeStore.node_eq_ok.mp hm⟩
      split at h
      next =>
        cases h
        exact .inl rfl
      next hnew =>
        obtain ⟨rest, hrest, h⟩ := bind_eq_ok.mp h
        cases h
        exact .inr ⟨m, rest, htarget, by simpa using hnew, hrest, rfl⟩

theorem stored_of_along_pos {k : ℕ} (hpos : 0 < k) (h : store.along step n k = some m) :
    m ∈ store.nodes.values := by
  obtain ⟨j, rfl⟩ := Nat.exists_eq_add_one_of_ne_zero (Nat.ne_of_gt hpos)
  obtain ⟨x, _, hx⟩ := Option.bind_eq_some_iff.mp h
  obtain ⟨id, _, hid⟩ := NodeStore.target_eq_some.mp hx
  exact SortedMap.mem_values.mpr ⟨id, hid⟩

theorem along_of_mem_walk (h : walk store step count seen n = .ok l) (hm : m ∈ l) :
    ∃ k, 0 < k ∧ k ≤ count ∧ store.along step n k = some m := by
  induction count generalizing seen n l with
  | zero =>
      cases h
      cases hm
  | succ count ih =>
      rcases walk_succ_eq_ok h with rfl | ⟨x, rest, htarget, _, hrest, rfl⟩
      · cases hm
      · rcases List.mem_cons.mp hm with rfl | hm
        · exact ⟨1, by omega, by omega, htarget⟩
        · obtain ⟨k, _, hk, hx⟩ := ih hrest hm
          exact ⟨k + 1, by omega, by omega, (NodeStore.along_succ htarget k).trans hx⟩

/-- A walk fails at a link to an id that is not stored. -/
theorem walk_eq_error (h : walk store step count seen n = .error f) :
    ∃ k x id, k < count ∧ store.along step n k = some x ∧ step x = some id ∧ store.nodes.get? id = none ∧
      f = .absent (.node id) := by
  induction count generalizing seen n with
  | zero => cases h
  | succ count ih =>
      unfold walk at h
      cases hlink : step n with
      | none =>
          rw [hlink] at h
          cases h
      | some id =>
          rw [hlink] at h
          rcases bind_eq_error.mp h with h | ⟨m, hm, h⟩
          · unfold NodeStore.node at h
            cases hget : store.nodes.get? id with
            | some m => simp [hget] at h
            | none =>
                rw [hget] at h
                cases h
                exact ⟨0, n, id, by omega, rfl, hlink, hget, rfl⟩
          · have htarget : store.target step n = some m :=
              NodeStore.target_eq_some.mpr ⟨id, hlink, NodeStore.node_eq_ok.mp hm⟩
            split at h
            next => cases h
            next =>
              rcases bind_eq_error.mp h with h | ⟨rest, _, h⟩
              · obtain ⟨k, x, i, hk, hx, hdangling⟩ := ih h
                exact ⟨k + 1, x, i, by omega, (NodeStore.along_succ htarget k).trans hx, hdangling⟩
              · cases h

/-! ### Neighbours of a hit -/

theorem neighboursOf_eq : neighboursOf store count mode n = (do
    let after ← (if mode.forward then walk store Node.next? count [n.id] n else pure [] : Except Failure _)
    let before ← (if mode.backward then walk store Node.previous? count [n.id] n else pure [] :
      Except Failure _)
    return after ++ before) := by
  unfold neighboursOf
  cases mode.forward <;> cases mode.backward <;> rfl

theorem neighboursOf_eq_ok (h : neighboursOf store count mode n = .ok l) (hm : m ∈ l) :
    Reached store mode count n m := by
  rw [neighboursOf_eq] at h
  obtain ⟨after, hafter, h⟩ := bind_eq_ok.mp h
  obtain ⟨before, hbefore, h⟩ := bind_eq_ok.mp h
  cases h
  rcases List.mem_append.mp hm with hm | hm
  · split at hafter
    next hmode => exact ⟨_, .next hmode, along_of_mem_walk hafter hm⟩
    next =>
      cases hafter
      cases hm
  · split at hbefore
    next hmode => exact ⟨_, .previous hmode, along_of_mem_walk hbefore hm⟩
    next =>
      cases hbefore
      cases hm

theorem dangles_of_walk (hmode : mode.Follows step) (h : walk store step count seen n = .error f) :
    ∃ id, f = .absent (.node id) ∧ Dangles store mode count n id := by
  obtain ⟨k, x, id, hk, hx, hlink, hmissing, hf⟩ := walk_eq_error h
  exact ⟨id, hf, step, hmode, k, x, hk, hx, hlink, hmissing⟩

theorem neighboursOf_eq_error (h : neighboursOf store count mode n = .error f) :
    ∃ id, f = .absent (.node id) ∧ Dangles store mode count n id := by
  rw [neighboursOf_eq] at h
  rcases bind_eq_error.mp h with hafter | ⟨_, _, h⟩
  · split at hafter
    next hmode => exact dangles_of_walk (.next hmode) hafter
    next => cases hafter
  · rcases bind_eq_error.mp h with hbefore | ⟨_, _, h⟩
    · split at hbefore
      next hmode => exact dangles_of_walk (.previous hmode) hbefore
      next => cases hbefore
    · cases h

/-! ### Expansions -/

/-- Every hit id and each id once; what is no hit has no score and was reached from one. -/
structure Expanded (store : NodeStore) (mode : NeighbourMode) (count : ℕ) (hits out : List Hit) : Prop where
  kept : ∀ h ∈ hits, h.node.id ∈ out.map (·.node.id)
  once : (out.map (·.node.id)).Nodup
  added : ∀ x ∈ out, x ∈ hits ∨ x.score = none ∧ x.node.id ∉ hits.map (·.node.id) ∧
    ∃ h ∈ hits, Reached store mode count h.node x.node
  bounded : out.length ≤ hits.length + store.size

theorem Reached.stored (h : Reached store mode count n m) : m ∈ store.nodes.values := by
  obtain ⟨step, _, k, hpos, _, hk⟩ := h
  exact stored_of_along_pos hpos hk

/-- Hits under their ids, and under the others the nodes that were found. -/
theorem added_of_mem {x : Hit} (h : x ∈ (addMissing (byId hits) nodes).values) :
    x ∈ hits ∨ x.score = none ∧ x.node.id ∉ hits.map (·.node.id) ∧ x.node ∈ nodes := by
  obtain ⟨id, hget⟩ := SortedMap.mem_values.mp h
  have hid := id_of_get?_addMissing hget
  rw [get?_addMissing, Option.or_eq_some_iff] at hget
  rcases hget with hhit | ⟨hfree, hadded⟩
  · exact .inl (of_get?_byId hhit).1
  · obtain ⟨n, hn, rfl⟩ := Option.map_eq_some_iff.mp hadded
    refine .inr ⟨rfl, fun hin => ?_, (of_find?_id hn).1⟩
    obtain ⟨y, hy⟩ := SortedMap.contains_iff.mp (contains_byId.mpr hin)
    rw [hid, hfree] at hy
    cases hy

theorem kept_addMissing {h : Hit} (hh : h ∈ hits) :
    h.node.id ∈ (addMissing (byId hits) nodes).values.map (·.node.id) := by
  have hin : (byId hits).contains h.node.id = true :=
    contains_byId.mpr (List.mem_map_of_mem (f := (·.node.id)) hh)
  obtain ⟨x, hx⟩ := SortedMap.contains_iff.mp hin
  have hget : (addMissing (byId hits) nodes).get? h.node.id = some x := by
    rw [get?_addMissing, hx]
    rfl
  exact List.mem_map.mpr ⟨x, SortedMap.mem_values.mpr ⟨_, hget⟩, id_of_get?_addMissing hget⟩

/-- The sort by places changes the order only. -/
theorem addNeighbours_eq_ok (h : addNeighbours store count mode hits = .ok out) :
    ∃ found, hits.mapM (fun h => neighboursOf store count mode h.node) = .ok found ∧
      out.Perm (addMissing (byId hits) found.flatten).values := by
  obtain ⟨found, hfound, h⟩ := bind_eq_ok.mp h
  obtain ⟨placed, hplaced, h⟩ := bind_eq_ok.mp h
  cases h
  have hsnd : placed.map (·.2) = (addMissing (byId hits) found.flatten).values := by
    apply map_of_mapM_eq_ok _ hplaced
    intro x p hp
    obtain ⟨place, _, hp⟩ := bind_eq_ok.mp hp
    cases hp
    rfl
  exact ⟨found, hfound, hsnd ▸ (List.mergeSort_perm placed inReadingOrder).map (·.2)⟩

theorem expanded_of_eq_ok (h : addNeighbours store count mode hits = .ok out) :
    Expanded store mode count hits out := by
  obtain ⟨found, hfound, hperm⟩ := addNeighbours_eq_ok h
  have hreached : ∀ m ∈ found.flatten, ∃ h ∈ hits, Reached store mode count h.node m := by
    intro m hm
    obtain ⟨l, hl, hm⟩ := List.mem_flatten.mp hm
    obtain ⟨x, hx, hrun⟩ := mem_of_mapM_eq_ok hfound hl
    exact ⟨x, hx, neighboursOf_eq_ok hrun hm⟩
  have honce : (out.map (·.node.id)).Nodup :=
    (hperm.map (·.node.id)).nodup_iff.mpr (nodup_addMissing hits found.flatten)
  have hadded : ∀ x ∈ out, x ∈ hits ∨ x.score = none ∧ x.node.id ∉ hits.map (·.node.id) ∧
      ∃ h ∈ hits, Reached store mode count h.node x.node := by
    intro x hx
    rcases added_of_mem (hperm.mem_iff.mp hx) with hhit | ⟨hscore, hfree, hnode⟩
    · exact .inl hhit
    · exact .inr ⟨hscore, hfree, hreached _ hnode⟩
  refine ⟨fun x hx => ?_, honce, hadded, ?_⟩
  · exact (hperm.map (·.node.id)).mem_iff.mpr (kept_addMissing hx)
  · have hsub : out.map (·.node.id) ⊆ (hits.map (·.node) ++ store.nodes.values).map (·.id) := by
      intro id hid
      obtain ⟨x, hx, rfl⟩ := List.mem_map.mp hid
      apply List.mem_map_of_mem
      rcases hadded x hx with hhit | ⟨_, _, y, _, hy⟩
      · exact List.mem_append_left _ (List.mem_map_of_mem hhit)
      · exact List.mem_append_right _ hy.stored
    have hle := (List.subperm_of_subset honce hsub).length_le
    simpa [SortedMap.values, NodeStore.size, SortedMap.size] using hle

/-- An expansion fails at a link that leads to no node, or at previous links that come back. -/
theorem addNeighbours_eq_error (h : addNeighbours store count mode hits = .error f) :
    (∃ x ∈ hits, ∃ id, f = .absent (.node id) ∧ Dangles store mode count x.node id) ∨
      ∃ id n, f = .corrupt (.linkCycle id) ∧ store.nodes.get? id = some n ∧
        store.Returns Node.previous? ∅ n := by
  rcases bind_eq_error.mp h with h | ⟨found, _, h⟩
  · obtain ⟨x, hx, hwalk⟩ := mapM_eq_error h
    exact .inl ⟨x, hx, neighboursOf_eq_error hwalk⟩
  · rcases bind_eq_error.mp h with h | ⟨placed, _, h⟩
    · obtain ⟨x, _, hplace⟩ := mapM_eq_error h
      rcases bind_eq_error.mp hplace with hplace | ⟨_, _, hplace⟩
      · unfold placeOf at hplace
        split at hplace
        next hin =>
          obtain ⟨n, hn⟩ := NodeStore.contains_iff.mp hin
          obtain ⟨hf, hback⟩ := (NodeStore.chainPosition_eq_error_iff hn).mp hplace
          exact .inr ⟨_, n, hf, hn, hback⟩
        next => cases hplace
      · cases hplace
    · cases h

/-- Wherever links lead, they are followed to an end. The place of a stored node is the number of previous links
up to where there is none or its target is missing, and it is refused exactly where the links come back, in a
store of nodes under their own ids where they lead to a node twice. Expanding any hits gives each of them and
only nodes near them, each once, unless a link leads to no node or the previous links of a node come back. -/
theorem links_are_followed_to_an_end (s : NodeStore) :
    (∀ id n, s.nodes.get? id = some n →
      (∀ f, s.chainPosition id = .error f ↔
        f = .corrupt (.linkCycle id) ∧ s.Returns Node.previous? ∅ n) ∧
      (∀ k, s.chainPosition id = .ok k ↔
        ¬ s.Returns Node.previous? ∅ n ∧ s.EndsAfter Node.previous? n k) ∧
      (∀ k, s.chainPosition id = .ok k → k < s.size) ∧
      (s.Keyed → (s.Returns Node.previous? ∅ n ↔ s.Revisits Node.previous? n))) ∧
    ∀ mode count hits similarity,
      match run ⟨some s, similarity⟩ hits (.neighbours count mode) with
      | .ok out => Expanded s mode count hits out
      | .error f =>
        (∃ x ∈ hits, ∃ id, f = .absent (.node id) ∧ Dangles s mode count x.node id) ∨
          ∃ id n, f = .corrupt (.linkCycle id) ∧ s.nodes.get? id = some n ∧
            s.Returns Node.previous? ∅ n := by
  constructor
  · intro id n hn
    refine ⟨fun f => ?_, fun k => ?_, fun k hk => ?_, fun hs => hs.returns_iff hn⟩
    · exact NodeStore.chainPosition_eq_error_iff hn
    · exact NodeStore.chainPosition_eq_ok_iff hn
    · exact NodeStore.lt_size_of_chainPosition hn hk
  · intro mode count hits similarity
    change match addNeighbours s count mode hits with
      | .ok out => _
      | .error f => _
    cases h : addNeighbours s count mode hits with
    | ok out => exact expanded_of_eq_ok h
    | error f => exact addNeighbours_eq_error h

/-- A node with at most one link back and one on. -/
def linkedNode (id document : String) (previous next : Option String) : Node :=
  let n : Node := { id, text := "", document := some document }
  let n := previous.elim n (n.setLink .previous)
  next.elim n (n.setLink .next)

def headNode : Node := linkedNode "head" "d" (some "gone") (some "left")

/-- The links back from the stem run into a circle it is not on, and so do the links on from the head, whose
link back leads to no node. -/
def tangle : NodeStore := [
  linkedNode "stem" "d" (some "bend") none,
  linkedNode "bend" "d" (some "ring") none,
  linkedNode "ring" "d" (some "bend") none,
  headNode,
  linkedNode "left" "e" (some "head") (some "right"),
  linkedNode "right" "e" (some "head") (some "left")].foldl NodeStore.put {}

/-- The stem has no place in the tangle and the left node has one; the head has both nodes of its circle after
it, and each once. -/
theorem links_are_followed_to_an_end_tangle : tangle.Keyed ∧ ∃ stem left out,
    tangle.nodes.get? "stem" = some stem ∧ tangle.nodes.get? "left" = some left ∧
    tangle.chainPosition "stem" = .error (.corrupt (.linkCycle "stem")) ∧
    tangle.Revisits Node.previous? stem ∧
    tangle.chainPosition "left" = .ok 1 ∧ tangle.EndsAfter Node.previous? left 1 ∧
    run ⟨some tangle, none⟩ [⟨headNode, none⟩] (.neighbours 5 .next) = .ok out ∧
    (out.map (·.node.id)).Perm ["head", "left", "right"] ∧ Expanded tangle .next 5 [⟨headNode, none⟩] out := by
  have hkeyed : tangle.Keyed := NodeStore.keyed_empty.foldl_put
  obtain ⟨hplaces, hexpands⟩ := links_are_followed_to_an_end tangle
  obtain ⟨stem, hstem⟩ : ∃ stem, tangle.nodes.get? "stem" = some stem := ⟨_, rfl⟩
  obtain ⟨left, hleft⟩ : ∃ left, tangle.nodes.get? "left" = some left := ⟨_, rfl⟩
  obtain ⟨hrefused, _, _, hreturns⟩ := hplaces "stem" stem hstem
  obtain ⟨_, hplaced, _, _⟩ := hplaces "left" left hleft
  have hcycle : tangle.chainPosition "stem" = .error (.corrupt (.linkCycle "stem")) := by decide +kernel
  have hplace : tangle.chainPosition "left" = .ok 1 := by decide +kernel
  have hsome : (run ⟨some tangle, none⟩ [⟨headNode, none⟩] (.neighbours 5 .next)).toOption.isSome = true := by
    decide +kernel
  obtain ⟨out, hout⟩ := Option.isSome_iff_exists.mp hsome
  have hrun := toOption_eq_some.mp hout
  obtain ⟨found, hfound, hperm⟩ := addNeighbours_eq_ok hrun
  have hids : ([⟨headNode, none⟩].mapM fun h : Hit => neighboursOf tangle 5 .next h.node).toOption.map
      (fun found => (addMissing (byId [⟨headNode, none⟩]) found.flatten).values.map (·.node.id)) =
        some ["head", "left", "right"] := by decide +kernel
  rw [hfound] at hids
  have hexpanded := hexpands .next 5 [⟨headNode, none⟩] none
  rw [hrun] at hexpanded
  have hback : tangle.Returns Node.previous? ∅ stem := ((hrefused _).mp hcycle).2
  exact ⟨hkeyed, stem, left, out, hstem, hleft, hcycle, (hreturns hkeyed).mp hback, hplace,
    ((hplaced 1).mp hplace).2, hrun, Option.some.inj hids ▸ hperm.map _, hexpanded⟩

end Postprocessor
end CorpusIndex
