import CorpusIndex.Composition
import CorpusIndex.Proofs.Answers.Sources
import Mathlib.Data.Finset.Card
import Mathlib.Order.Basic

/-!
# Searches through indices over indices

`Search` says how a search of a composition goes, without a bound on its depth: the root is searched in
its own store, and each hit on a stand-in is replaced by what the search of its index finds, in its own
store and without the engine. Where a rank falls from each member to the indices its nodes stand for, the
bounded search goes exactly like that (`searchFrom_search`), because no rank comes twice on the way down.
-/
namespace CorpusIndex

variable {σ : Type}

/-! ### Answers one after another -/

namespace SimilarityRecord

theorem find?_extend (r s : SimilarityRecord) (id : String) :
    (r.extend s).find? id = (s.find? id).or (r.find? id) := SortedMap.get?_union ..

end SimilarityRecord

namespace Retrieval

/-- Hits of both, and the scores of both, those of the second last. -/
instance : Append Retrieval := ⟨fun a b => ⟨a.hits ++ b.hits, a.similarity.extend b.similarity⟩⟩

@[simp] theorem similarity_append (a b : Retrieval) :
    (a ++ b).similarity = a.similarity.extend b.similarity := rfl

@[simp] theorem append_nothing (a : Retrieval) : a ++ ({} : Retrieval) = a :=
  congrArg₂ Retrieval.mk (List.append_nil _) rfl

theorem append_assoc (a b c : Retrieval) : a ++ b ++ c = a ++ (b ++ c) :=
  congrArg₂ Retrieval.mk (List.append_assoc ..) (congrArg SimilarityRecord.mk (SortedMap.union_assoc ..))

/-- What is found after `b` is found after `a` and `b`. -/
theorem map_append_map (a b : Retrieval) (x : Except Failure Retrieval) :
    (a ++ ·) <$> (b ++ ·) <$> x = (a ++ b ++ ·) <$> x := by
  cases x with
  | ok r => exact congrArg Except.ok (append_assoc a b r).symm
  | error e => rfl

end Retrieval

/-! ### How a search goes -/

/-- An index that a search came to, with what it answered by itself. -/
structure Visit where
  index : String
  answer : Except Failure Retrieval

/-- The score the visited index itself gave a node. -/
def Visit.score? (v : Visit) (id : String) : Option Float32 :=
  match v.answer with
  | .ok r => r.similarity.find? id
  | .error _ => none

/-- What a search has before it: an index, or hits that may stand for indices. -/
inductive Task where
  | index (id : String)
  | hits (l : List Hit)

namespace Composition
variable {g : Composition} {c : SearchContext σ} {q : Query} {id : String} {s s' : σ} {t : Task}
  {visits : List Visit} {a : Except Failure Retrieval}

/-- What the index `id` answers by itself, in its own store. -/
def ownAnswer (g : Composition) (q : Query) (c : SearchContext σ) (id : String) : Action σ Retrieval := do
  let (i, store) ← g.member id
  (← ({ c with store }).retriever i) q

/-- How a search goes: the indices it comes to, one after another, its answer, and the state in which it
leaves the collaborators. -/
inductive Search (g : Composition) (q : Query) : SearchContext σ → Task → (start : σ) → List Visit →
    Except Failure Retrieval → (finish : σ) → Prop
  /-- The index itself fails, or is not there. -/
  | fails {c : SearchContext σ} {id : String} {s s' : σ} {e : Failure} :
      (g.ownAnswer q c id).run s = (.error e, s') →
      Search g q c (.index id) s [⟨id, .error e⟩] (.error e) s'
  /-- The hits of the index are gone through without the engine. -/
  | finds {c : SearchContext σ} {id : String} {s s₁ s₂ : σ} {own : Retrieval} {visits : List Visit}
      {below : Except Failure Retrieval} :
      (g.ownAnswer q c id).run s = (.ok own, s₁) →
      Search g q { c with engine := none } (.hits own.hits) s₁ visits below s₂ →
      Search g q c (.index id) s (⟨id, .ok own⟩ :: visits)
        (({ similarity := own.similarity } ++ ·) <$> below) s₂
  | done {c : SearchContext σ} {s : σ} : Search g q c (.hits []) s [] (.ok {}) s
  /-- A node of its own stays. -/
  | keeps {c : SearchContext σ} {hit : Hit} {rest : List Hit} {s s' : σ} {visits : List Visit}
      {a : Except Failure Retrieval} :
      hit.node.index = none → Search g q c (.hits rest) s visits a s' →
      Search g q c (.hits (hit :: rest)) s visits (({ hits := [hit] } ++ ·) <$> a) s'
  /-- A stand-in gives way to what its index answers. -/
  | replaces {c : SearchContext σ} {hit : Hit} {rest : List Hit} {child : String} {s s₁ s₂ : σ}
      {below : Retrieval} {visits visits' : List Visit} {a : Except Failure Retrieval} :
      hit.node.index = some child → Search g q c (.index child) s visits (.ok below) s₁ →
      Search g q c (.hits rest) s₁ visits' a s₂ →
      Search g q c (.hits (hit :: rest)) s (visits ++ visits') ((below ++ ·) <$> a) s₂
  /-- The search ends where that of an index fails. -/
  | stops {c : SearchContext σ} {hit : Hit} {rest : List Hit} {child : String} {s s' : σ} {e : Failure}
      {visits : List Visit} :
      hit.node.index = some child → Search g q c (.index child) s visits (.error e) s' →
      Search g q c (.hits (hit :: rest)) s visits (.error e) s'

/-- A search can only go one way. -/
theorem Search.unique {visits' : List Visit} {a' : Except Failure Retrieval} {s'' : σ}
    (h : g.Search q c t s visits a s') (h' : g.Search q c t s visits' a' s'') :
    visits = visits' ∧ a = a' ∧ s' = s'' := by
  induction h generalizing visits' a' s'' with
  | fails hown =>
      cases h' with
      | fails hown' => cases hown.symm.trans hown'; exact ⟨rfl, rfl, rfl⟩
      | finds hown' _ => cases hown.symm.trans hown'
  | finds hown _ ih =>
      cases h' with
      | fails hown' => cases hown.symm.trans hown'
      | finds hown' hbelow =>
          cases hown.symm.trans hown'
          obtain ⟨rfl, rfl, rfl⟩ := ih hbelow
          exact ⟨rfl, rfl, rfl⟩
  | done => cases h'; exact ⟨rfl, rfl, rfl⟩
  | keeps hnone _ ih =>
      cases h' with
      | keeps _ hrest =>
          obtain ⟨rfl, rfl, rfl⟩ := ih hrest
          exact ⟨rfl, rfl, rfl⟩
      | replaces hsome _ _ => cases hnone.symm.trans hsome
      | stops hsome _ => cases hnone.symm.trans hsome
  | replaces hsome _ _ ihchild ihrest =>
      cases h' with
      | keeps hnone _ => cases hnone.symm.trans hsome
      | replaces hsome' hchild hrest =>
          cases hsome.symm.trans hsome'
          obtain ⟨rfl, hbelow, rfl⟩ := ihchild hchild
          cases hbelow
          obtain ⟨rfl, rfl, rfl⟩ := ihrest hrest
          exact ⟨rfl, rfl, rfl⟩
      | stops hsome' hchild =>
          cases hsome.symm.trans hsome'
          cases (ihchild hchild).2.1
  | stops hsome _ ih =>
      cases h' with
      | keeps hnone _ => cases hnone.symm.trans hsome
      | replaces hsome' hchild _ =>
          cases hsome.symm.trans hsome'
          cases (ih hchild).2.1
      | stops hsome' hchild =>
          cases hsome.symm.trans hsome'
          obtain ⟨rfl, he, rfl⟩ := ih hchild
          cases he
          exact ⟨rfl, rfl, rfl⟩

/-! ### The bounded search -/

theorem searchFrom_succ (levels : Nat) : g.searchFrom q (levels + 1) c id =
    g.ownAnswer q c id >>= fun own =>
      expand (g.searchFrom q levels { c with engine := none }) { similarity := own.similarity } own.hits := by
  simp only [searchFrom, ownAnswer, bind_assoc]

section Expand
variable {follow : String → Action σ Retrieval} {hit : Hit} {rest : List Hit} {child : String}

theorem expand_keeps (h : hit.node.index = none) (out : Retrieval) :
    expand follow out (hit :: rest) = expand follow (out ++ { hits := [hit] }) rest := by
  rw [expand, h]
  rfl

theorem expand_replaces (h : hit.node.index = some child) (out : Retrieval) :
    expand follow out (hit :: rest) = follow child >>= fun below => expand follow (out ++ below) rest := by
  rw [expand, h]
  rfl

/-- The run ends a search for what is at hand. -/
def Runs (g : Composition) (q : Query) (c : SearchContext σ) (t : Task) (s : σ)
    (run : Except Failure Retrieval × σ) : Prop :=
  ∃ visits, g.Search q c t s visits run.1 run.2

/-- Hits are gone through as a search does, where stand-ins are followed as one does. -/
theorem expand_search {hits : List Hit}
    (follows : ∀ hit ∈ hits, ∀ child, hit.node.index = some child →
      ∀ s, g.Runs q c (.index child) s ((follow child).run s)) (out : Retrieval) (s : σ) :
    ∃ visits a s', g.Search q c (.hits hits) s visits a s' ∧
      (expand follow out hits).run s = ((out ++ ·) <$> a, s') := by
  induction hits generalizing out s with
  | nil => exact ⟨[], .ok {}, s, .done, by rw [expand]; simp; rfl⟩
  | cons hit rest ih =>
      have ih := ih fun h hh => follows h (List.mem_cons_of_mem _ hh)
      cases hindex : hit.node.index with
      | none =>
          obtain ⟨visits, a, s', hrest, hrun⟩ := ih (out ++ { hits := [hit] }) s
          exact ⟨visits, _, s', .keeps hindex hrest,
            by rw [expand_keeps hindex, hrun, Retrieval.map_append_map]⟩
      | some child =>
          obtain ⟨visits, hchild⟩ := follows hit List.mem_cons_self child hindex s
          rw [expand_replaces hindex, run_bind]
          rcases hr : (follow child).run s with ⟨r, s₁⟩
          rw [hr] at hchild
          cases r with
          | error e => exact ⟨visits, .error e, s₁, .stops hindex hchild, rfl⟩
          | ok below =>
              obtain ⟨visits', a, s₂, hrest, hrun⟩ := ih (out ++ below) s₁
              exact ⟨visits ++ visits', _, s₂, .replaces hindex hchild hrest,
                by rw [Retrieval.map_append_map]; exact hrun⟩

end Expand

/-! ### Ranks -/

/-- Every index that a node of a member stands for has a lower rank than the member. -/
def Ranked {α : Type*} [Preorder α] (g : Composition) (rank : String → α) : Prop :=
  ∀ id i store, g.members.get? id = some (i, store) → ∀ nodeId ∈ i.nodeIds, ∀ n,
    store.nodes.get? nodeId = some n → ∀ child, n.index = some child → rank child < rank id

/-- Stores and forests came from operations on them. -/
structure Built (g : Composition) : Prop where
  stores : ∀ id i store, g.members.get? id = some (i, store) → store.Built
  trees : ∀ id f store, g.members.get? id = some (.tree f, store) → f.Built

/-- The node belongs to the member `id`: its index refers to it, and its store holds it. -/
def Holds (g : Composition) (id : String) (n : Node) : Prop :=
  ∃ i store, g.members.get? id = some (i, store) ∧ n.id ∈ i.nodeIds ∧ store.nodes.get? n.id = some n

theorem ownAnswer_finds (built : g.Built) (q : Query) (c : SearchContext σ) (id : String) :
    Ends (g.ownAnswer q c id) (fun r => ∀ h ∈ r.hits, g.Holds id h.node) NoCircle := by
  unfold ownAnswer member
  cases hget : g.members.get? id with
  | none => exact Ends.bind (P := fun _ => False) (Ends.throw fun _ h => by cases h) fun _ h => h.elim
  | some m =>
      obtain ⟨i, store⟩ := m
      refine Ends.bind_ok (a := (i, store)) rfl ?_
      refine Ends.bind (Ends.lift (fun _ h => h) fun _ h => SearchContext.retriever_noCircle h) fun r hr => ?_
      have hfinds : Finds store i.nodeIds (r q) :=
        SearchContext.retriever_finds (built.stores id i store hget).keyed
          (fun f hf => built.trees id f store (hf ▸ hget)) hr q
      exact hfinds.imp (fun r h hit hh => ⟨i, store, hget, h hit hh⟩) fun _ h => h

section Rank
variable {α : Type*} [Preorder α] {rank : String → α}

open Classical in
/-- More than the number of members ranked below a member, and nothing for an index that is none. -/
noncomputable def height (g : Composition) (rank : String → α) (id : String) : Nat :=
  if g.members.contains id then (g.members.keys.toFinset.filter (rank · < rank id)).card + 1 else 0

theorem height_le (g : Composition) (rank : String → α) (id : String) :
    g.height rank id ≤ g.members.size + 1 := by
  classical
  unfold height
  split
  · have hkeys := (Finset.card_filter_le g.members.keys.toFinset (rank · < rank id)).trans
      (List.toFinset_card_le g.members.keys)
    have hsize : g.members.keys.length = g.members.size := List.length_map ..
    omega
  · omega

theorem height_lt {child : String} (hid : g.members.contains id = true) (h : rank child < rank id) :
    g.height rank child < g.height rank id := by
  classical
  unfold height
  rw [if_pos hid]
  split
  next hchild =>
    refine Nat.add_lt_add_right (Finset.card_lt_card ?_) 1
    refine Finset.ssubset_iff_of_subset ?_ |>.mpr ⟨child, ?_, ?_⟩
    · intro k hk
      obtain ⟨hmem, hk⟩ := Finset.mem_filter.mp hk
      exact Finset.mem_filter.mpr ⟨hmem, hk.trans h⟩
    · have hmem := SortedMap.mem_keys.mpr (SortedMap.contains_iff.mp hchild)
      exact Finset.mem_filter.mpr ⟨List.mem_toFinset.mpr hmem, h⟩
    · exact fun hc => lt_irrefl _ (Finset.mem_filter.mp hc).2
  next => omega

variable (built : g.Built) (ranked : g.Ranked rank)
include built ranked

/-- The stand-ins a member answers with stand for lower indices. -/
theorem height_lt_of_own {own : Retrieval} (hown : (g.ownAnswer q c id).run s = (.ok own, s')) {h : Hit}
    (hh : h ∈ own.hits) {child : String} (hindex : h.node.index = some child) :
    g.height rank child < g.height rank id := by
  obtain ⟨i, store, hget, hid, hn⟩ := (ownAnswer_finds built q c id).of_run hown h hh
  exact height_lt (SortedMap.contains_iff.mpr ⟨_, hget⟩) (ranked id i store hget _ hid _ hn child hindex)

/-- With more levels than the index is high the bounded search goes as a search does. -/
theorem searchFrom_search {levels : Nat} (hlevels : g.height rank id < levels) (c : SearchContext σ)
    (s : σ) : g.Runs q c (.index id) s ((g.searchFrom q levels c id).run s) := by
  induction levels generalizing id c s with
  | zero => omega
  | succ levels ih =>
      rw [searchFrom_succ, run_bind]
      rcases hown : (g.ownAnswer q c id).run s with ⟨r, s₁⟩
      cases r with
      | error e => exact ⟨_, .fails hown⟩
      | ok own =>
          have hfollows (hit : Hit) (hh : hit ∈ own.hits) (child : String) (hindex : hit.node.index = some child)
              (s : σ) : g.Runs q { c with engine := none } (.index child) s
                ((g.searchFrom q levels { c with engine := none } child).run s) :=
            ih (by have := height_lt_of_own built ranked hown hh hindex; omega) _ s
          obtain ⟨visits, below, s₂, hsearch, hrun⟩ :=
            expand_search hfollows { similarity := own.similarity } s₁
          dsimp only
          rw [hrun]
          exact ⟨_, .finds hown hsearch⟩

end Rank

/-! ### What a search finds -/

/-- The hits that a search has before it belong to members. -/
def Sourced (g : Composition) : Task → Prop
  | .index _ => True
  | .hits l => ∀ h ∈ l, ∃ id, g.Holds id h.node

/-- A search answers with nodes of members, none of which stands for an index. -/
theorem Search.hits (built : g.Built) (h : g.Search q c t s visits a s') (ht : g.Sourced t) :
    ∀ r, a = .ok r → ∀ hit ∈ r.hits, hit.node.index = none ∧ ∃ id, g.Holds id hit.node := by
  induction h with
  | fails | stops => rintro r ⟨⟩
  | @finds c id s s₁ _ own _ below hown _ ih =>
      have hsourced := (ownAnswer_finds built q c id).of_run hown
      rintro r hr hit hh
      obtain ⟨x, hx, rfl⟩ := map_eq_ok.mp hr
      exact ih (fun h hh => ⟨id, hsourced h hh⟩) x hx hit hh
  | done => rintro r ⟨⟩ _ ⟨⟩
  | keeps hindex _ ih =>
      obtain ⟨hhit, hrest⟩ := List.forall_mem_cons.mp ht
      rintro r hr
      obtain ⟨x, hx, rfl⟩ := map_eq_ok.mp hr
      exact List.forall_mem_append.mpr ⟨List.forall_mem_singleton.mpr ⟨hindex, hhit⟩, ih hrest x hx⟩
  | replaces _ _ _ ihchild ihrest =>
      rintro r hr
      obtain ⟨x, hx, rfl⟩ := map_eq_ok.mp hr
      exact List.forall_mem_append.mpr ⟨ihchild trivial _ rfl, ihrest (List.forall_mem_cons.mp ht).2 x hx⟩

/-- Every score is that of the last visited index that gave one. -/
theorem Search.similarity (h : g.Search q c t s visits a s') :
    ∀ r, a = .ok r → ∀ id, r.similarity.find? id = visits.reverse.findSome? (·.score? id) := by
  induction h with
  | fails | stops => rintro r ⟨⟩
  | finds hown _ ih =>
      rintro r hr id
      obtain ⟨x, hx, rfl⟩ := map_eq_ok.mp hr
      rw [Retrieval.similarity_append, SimilarityRecord.find?_extend, ih x hx, List.reverse_cons,
        List.findSome?_append]
      simp [Visit.score?]
  | done => rintro r ⟨⟩ id; rfl
  | keeps _ _ ih =>
      rintro r hr id
      obtain ⟨x, hx, rfl⟩ := map_eq_ok.mp hr
      rw [Retrieval.similarity_append, SimilarityRecord.find?_extend, ih x hx]
      exact Option.or_none
  | replaces _ _ _ ihchild ihrest =>
      rintro r hr id
      obtain ⟨x, hx, rfl⟩ := map_eq_ok.mp hr
      rw [Retrieval.similarity_append, SimilarityRecord.find?_extend, ihchild _ rfl, ihrest x hx,
        List.reverse_append, List.findSome?_append]

/-- A search ends where an index it came to fails, and as that index does. -/
theorem Search.failed (h : g.Search q c t s visits a s') {v : Visit} {e : Failure} (hv : v ∈ visits)
    (he : v.answer = .error e) : a = .error e := by
  induction h with
  | fails => cases List.mem_singleton.mp hv; exact he
  | finds _ _ ih =>
      rcases List.mem_cons.mp hv with rfl | hv
      · cases he
      · rw [ih hv]; rfl
  | done => cases hv
  | keeps _ _ ih => rw [ih hv]; rfl
  | replaces _ _ _ ihchild ihrest =>
      rcases List.mem_append.mp hv with hv | hv
      · cases ihchild hv
      · rw [ihrest hv]; rfl
  | stops _ _ ih => exact ih hv

/-- An index that is not registered answers that it is not there. -/
theorem Search.unregistered (h : g.Search q c t s visits a s') {v : Visit} (hv : v ∈ visits)
    (hget : g.members.get? v.index = none) : v.answer = .error (.absent (.graphIndex v.index)) := by
  have hown {c : SearchContext σ} {id : String} {s s' : σ} {r : Except Failure Retrieval}
      (hget : g.members.get? id = none) (h : (g.ownAnswer q c id).run s = (r, s')) :
      r = .error (.absent (.graphIndex id)) := by
    unfold ownAnswer member at h
    rw [hget] at h
    exact (congrArg Prod.fst h).symm
  induction h with
  | fails hrun => cases List.mem_singleton.mp hv; exact hown hget hrun
  | finds hrun _ ih =>
      rcases List.mem_cons.mp hv with rfl | hv
      · exact hown hget hrun
      · exact ih hv
  | done => cases hv
  | keeps _ _ ih => exact ih hv
  | replaces _ _ _ ihchild ihrest => exact (List.mem_append.mp hv).elim ihchild ihrest
  | stops _ _ ih => exact ih hv

theorem Search.noCircle (built : g.Built) (h : g.Search q c t s visits a s') :
    ∀ e, a = .error e → NoCircle e := by
  induction h with
  | @fails c id s s' e hown =>
      rintro e ⟨⟩
      exact (ownAnswer_finds built q c id).of_run_error (congrArg Prod.fst hown)
  | finds _ _ ih => exact fun e he => ih e (map_eq_error.mp he)
  | done => rintro e ⟨⟩
  | keeps _ _ ih => exact fun e he => ih e (map_eq_error.mp he)
  | replaces _ _ _ _ ihrest => exact fun e he => ihrest e (map_eq_error.mp he)
  | stops _ _ ih => exact ih

/-- A search of a ranked composition comes to an end, and no deeper bound would change it. It answers with
the root's hits, each stand-in replaced in place by what its index answers, unless an index it comes to
fails: then it fails in the same way. -/
theorem retriever_replaces_stand_ins {α : Type*} [Preorder α] {rank : String → α} (built : g.Built)
    (ranked : g.Ranked rank) (c : SearchContext σ) (q : Query) (s : σ) :
    ∃ visits a s', g.Search q c (.index g.root) s visits a s' ∧ (g.retriever c q).run s = (a, s') ∧
      (∀ levels, g.depthBound ≤ levels → (g.searchFrom q levels c g.root).run s = (a, s')) ∧
      (∀ e, a = .error e → NoCircle e) ∧
      (∀ v ∈ visits, g.members.get? v.index = none → a = .error (.absent (.graphIndex v.index))) ∧
      ∀ r, a = .ok r →
        (∀ h ∈ r.hits, h.node.index = none ∧ ∃ id, g.Holds id h.node) ∧
        ∀ v ∈ visits, ∃ own, v.answer = .ok own ∧
          ∀ id, (own.similarity.find? id).isSome = true → (r.similarity.find? id).isSome = true := by
  have hbound (levels : Nat) (h : g.depthBound ≤ levels) :
      g.Runs q c (.index g.root) s ((g.searchFrom q levels c g.root).run s) := by
    have := g.height_le rank g.root
    exact searchFrom_search built ranked (by unfold depthBound at h; omega) c s
  obtain ⟨visits, hsearch⟩ := hbound g.depthBound le_rfl
  refine ⟨visits, _, _, hsearch, rfl, fun levels h => ?_, hsearch.noCircle built, fun v hv hget => ?_,
    fun r hr => ⟨hsearch.hits built trivial r hr, fun v hv => ?_⟩⟩
  · obtain ⟨visits', hsearch'⟩ := hbound levels h
    obtain ⟨_, ha, hs⟩ := hsearch'.unique hsearch
    exact Prod.ext ha hs
  · exact hsearch.failed hv (hsearch.unregistered hv hget)
  · cases hv' : v.answer with
    | error e => cases hr.symm.trans (hsearch.failed hv hv')
    | ok own =>
        refine ⟨own, rfl, fun id hid => ?_⟩
        rw [hsearch.similarity r hr, List.findSome?_isSome_iff]
        exact ⟨v, List.mem_reverse.mpr hv, by simpa only [Visit.score?, hv'] using hid⟩

/-! ### Two lists below a third -/

/-- A list of nodes, with the store that holds them. -/
def listing (id : String) (nodes : List Node) : Index × NodeStore :=
  (.list { id, nodes := nodes.map (·.id) }, nodes.foldl NodeStore.put {})

def wells : List Node := [{ id := "w1", text := "hand pump" }, { id := "w2", text := "cistern" }]

def panels : List Node := [{ id := "p1", text := "panel tilt" }]

/-- Stand-ins for a list of wells and a list of panels. -/
def signposts : List Node :=
  [Node.standingFor "water:index" "wells and rainwater" "water", Node.standingFor "power:index" "solar" "power"]

def utilities : Composition where
  root := "root"
  members := .ofList [("root", listing "root" signposts), ("water", listing "water" wells),
    ("power", listing "power" panels)]

theorem utilities_member {m : Index × NodeStore} (h : utilities.members.get? id = some m) :
    ∃ nodes, m = listing id nodes ∧ (nodes.map (·.id)).Nodup ∧
      ∀ n ∈ nodes, ∀ child, n.index = some child → id = "root" ∧ child ≠ "root" := by
  have hmem := (SortedMap.get?_ofList (by decide)).mp h
  simp only [List.mem_cons, Prod.mk.injEq, List.not_mem_nil, or_false] at hmem
  rcases hmem with ⟨rfl, rfl⟩ | ⟨rfl, rfl⟩ | ⟨rfl, rfl⟩
  · refine ⟨signposts, rfl, by decide, ?_⟩
    simp [signposts, Node.standingFor]
  · exact ⟨wells, rfl, by decide, by simp [wells]⟩
  · exact ⟨panels, rfl, by decide, by simp [panels]⟩

theorem utilities_built : utilities.Built where
  stores id i store h := by
    obtain ⟨nodes, hm, hnd, _⟩ := utilities_member h
    cases hm
    have hadd : ({} : NodeStore).add nodes false = .ok (nodes.foldl NodeStore.put {}) :=
      NodeStore.add_of_fresh hnd fun _ _ => rfl
    exact .add .empty hadd
  trees id f store h := by
    obtain ⟨nodes, hm, _⟩ := utilities_member h
    cases hm

theorem utilities_ranked : utilities.Ranked fun id => if id = "root" then 1 else 0 := by
  intro id i store h nodeId _ n hn child hindex
  obtain ⟨nodes, hm, hnd, hstand⟩ := utilities_member h
  cases hm
  obtain ⟨hn, _⟩ | ⟨_, hn⟩ := (NodeStore.get?_foldl_put hnd).mp hn
  · obtain ⟨rfl, hchild⟩ := hstand n hn child hindex
    simp [hchild]
  · cases hn

/-- The search from the list of stand-ins finds the wells and the panels. -/
theorem retriever_replaces_stand_ins_utilities :
    ∃ r, (utilities.retriever (SearchContext.plain {} 1 .root) { text := "wells" }).run () = (.ok r, ()) ∧
      r.hits.map (·.node.id) = ["w1", "w2", "p1"] ∧ ∀ h ∈ r.hits, h.node.index = none := by
  obtain ⟨_, a, _, _, hrun, _, _, _, hok⟩ := retriever_replaces_stand_ins utilities_built utilities_ranked
    (SearchContext.plain {} 1 .root) { text := "wells" } ()
  have hfound : (utilities.retriever (SearchContext.plain {} 1 .root) { text := "wells" }).run () =
      (.ok { hits := (wells ++ panels).map fun n => { node := n } }, ()) := rfl
  cases hfound.symm.trans hrun
  exact ⟨_, hfound, rfl, fun h hh => ((hok _ rfl).1 h hh).1⟩

end Composition
end CorpusIndex
