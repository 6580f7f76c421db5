import CorpusIndex.Proofs.Action
import CorpusIndex.Proofs.Forest.Checked
import CorpusIndex.Retrieve.Index

/-!
# Answers from a forest that can be walked

A failure of a collaborator is never counted as corruption. A descent over a walkable forest of stored
nodes therefore meets none either: the level of the candidates and the fuel that is left add up to more
than the number of nodes.
-/
namespace CorpusIndex

variable {σ α : Type}

/-- The failure does not say that the corpus is corrupt. -/
def NotCorrupt (e : Failure) : Prop := ∀ what, e ≠ .corrupt what

/-- The action never reports a corrupt corpus. -/
def Spares (a : Action σ α) : Prop := Ends a (fun _ => True) NotCorrupt

namespace Spares
variable {β : Type} {a : Action σ α} {f : α → Action σ β}

theorem pure (x : α) : Spares (Pure.pure x : Action σ α) := Ends.pure trivial

theorem throw {e : Failure} (h : NotCorrupt e) : Spares (MonadExcept.throw e : Action σ α) :=
  Ends.throw h

theorem bind (ha : Spares a) (hf : ∀ x, Spares (f x)) : Spares (a >>= f) :=
  Ends.bind ha fun x _ => hf x

theorem external (c : Call σ α) : Spares c.external := by
  intro s
  rw [external_run]
  rcases c.run s with ⟨r, s'⟩
  cases r with
  | ok a => trivial
  | error f => exact fun what h => by cases h

theorem bind_ok {x : Except Failure α} {y : α} (hx : x = .ok y) (hf : Spares (f y)) :
    Spares ((liftM x : Action σ α) >>= f) := Ends.bind_ok hx hf

theorem refuse {c : Prop} [Decidable c] {e : Failure} {f : PUnit → Action σ α} (h : NotCorrupt e)
    (hf : Spares (f ⟨⟩)) : Spares (if c then MonadExcept.throw e >>= f else f ⟨⟩) := Ends.refuse h hf

end Spares

theorem Query.embed_spares (q : Query) (e : Embedder σ) : Spares (q.embed e) := by
  unfold Query.embed
  split
  · exact .pure _
  · exact .external _

theorem Embedder.embedNodes_spares (e : Embedder σ) (nodes : List Node) : Spares (e.embedNodes nodes) := by
  have hcount {f : Fault} : NotCorrupt (.external (.fault f)) := fun what h => by cases h
  unfold embedNodes
  dsimp only
  split
  · exact Spares.bind (Spares.pure _) fun _ => Spares.refuse hcount (Spares.pure _)
  · exact Spares.bind (Spares.external _) fun _ => Spares.refuse hcount (Spares.pure _)

/-- The selector never reports a corrupt corpus. -/
def Selector.Spares (s : Selector σ) : Prop :=
  ∀ q candidates most, CorpusIndex.Spares (s.select q candidates most)

theorem Selector.forQuery_spares (model : LanguageModel σ) : (forQuery model).Spares := by
  intro q candidates most
  refine Ends.ite (CorpusIndex.Spares.pure _) ?_
  exact CorpusIndex.Spares.bind (CorpusIndex.Spares.external _) fun _ => CorpusIndex.Spares.pure _

theorem Selector.byEmbedding_spares (e : Embedder σ) : (byEmbedding e).Spares := by
  intro q candidates most
  refine Ends.ite (CorpusIndex.Spares.pure _) ?_
  refine CorpusIndex.Spares.bind (q.embed_spares e) fun v => ?_
  exact CorpusIndex.Spares.bind (e.embedNodes_spares candidates) fun _ => CorpusIndex.Spares.pure _

/-! ### Stored ids -/

namespace NodeStore
variable {store : NodeStore} {ids : List String}

theorem resolveAll_of_keyed (k : store.Keyed) (h : ∀ id ∈ ids, store.contains id = true) :
    ∃ nodes, store.resolveAll ids = .ok nodes ∧ nodes.map (·.id) = ids := by
  have hnode (id : String) (hid : id ∈ ids) :
      store.resolve id = .ok ((store.nodes.get? id).getD default) ∧
        ((store.nodes.get? id).getD default).id = id := by
    obtain ⟨n, hn⟩ := contains_iff.mp (h id hid)
    rw [hn]
    exact ⟨resolve_eq_ok.mpr hn, k id n hn⟩
  refine ⟨_, mapM_eq_ok fun id hid => (hnode id hid).1, ?_⟩
  rw [List.map_map]
  exact (List.map_congr_left fun id hid => (hnode id hid).2).trans (List.map_id' ids)

end NodeStore

namespace Forest
variable {f : Forest} {store : NodeStore} {s : Selector σ} {d fuel : Nat} {parent : Option String}

/-- The children of `parent` stand at level `d`. -/
def AtLevel (f : Forest) (parent : Option String) (d : Nat) : Prop :=
  match parent with
  | none => d = 0
  | some id => ∃ p e, f.nodes.get? p = some id ∧ f.Depth p e ∧ d = e + 1

theorem childrenOf_of_walkable (c : f.Checked) (w : f.Walkable) (h : f.AtLevel parent d) :
    ∃ l, f.childrenOf parent = .ok l ∧ ∀ x ∈ l, f.nodes.get? x.1 = some x.2 ∧ f.Depth x.1 d := by
  have hpositions : ∃ ps, f.childPositions parent = .ok ps ∧ ∀ p ∈ ps, f.Depth p d := by
    cases parent with
    | none =>
        cases h
        exact ⟨_, rfl, fun p hp => .root (isRoot_iff_contains.mpr (SortedSet.mem_mapValues.mp hp))⟩
    | some id =>
        obtain ⟨p, e, hp, hd, rfl⟩ := h
        refine ⟨f.children.getD id ∅, ?_, fun q hq => hd.child ⟨id, hp, hq⟩⟩
        simp only [childPositions, position, c.found p id hp]
        rfl
  obtain ⟨ps, hps, hdepth⟩ := hpositions
  refine ⟨ps.elems.map fun p => (p, (f.nodes.get? p).getD ""), ?_, fun x hx => ?_⟩
  · rw [childrenOf, hps, ok_bind]
    refine mapM_eq_ok fun p hp => ?_
    obtain ⟨id, hid⟩ := w.depth_occupied (hdepth p (SortedSet.mem_elems.mp hp))
    simp only [hid, Option.getD_some]
  · obtain ⟨p, hp, rfl⟩ := List.mem_map.mp hx
    have hd := hdepth p (SortedSet.mem_elems.mp hp)
    obtain ⟨id, hid⟩ := w.depth_occupied hd
    exact ⟨by simp only [hid, Option.getD_some], hd⟩

section Walk
variable (c : f.Checked) (w : f.Walkable)
include c w

/-- A descent keeps what holds of the hits on nodes of the forest, and fails only as a level or the
selector does. -/
theorem descend_ends {P : Hit → Prop} {E : Failure → Prop}
    (levels : ∀ ids, (∀ id ∈ ids, id ∈ f.nodeIds) →
      Ends (liftM (store.resolveAll ids) : Action σ (List Node))
        (fun nodes => nodes.map (·.id) = ids ∧ ∀ n ∈ nodes, ∀ score, P ⟨n, score⟩) E)
    (selects : ∀ q candidates most, Ends (s.select q candidates most) (fun _ => True) E)
    (r : Reach) (q : Query) (depth : Nat) {out : Retrieval} (hlevel : f.AtLevel parent d)
    (hfuel : f.size < fuel + d) (hout : ∀ h ∈ out.hits, P h) :
    Ends (f.descend store s r q fuel parent depth out) (fun out => ∀ h ∈ out.hits, P h) E := by
  induction fuel generalizing parent d depth out with
  | zero =>
      -- no level is as deep as there are nodes
      have hd : d ≤ f.size := by
        cases parent with
        | none => exact hlevel ▸ Nat.zero_le _
        | some id =>
            obtain ⟨p, e, _, hd, rfl⟩ := hlevel
            exact w.depth_lt_size hd
      omega
  | succ fuel ih =>
      obtain ⟨l, hl, hmem⟩ := childrenOf_of_walkable c w hlevel
      have hids : ∀ id ∈ l.map (·.2), id ∈ f.nodeIds := by
        intro id hid
        obtain ⟨x, hx, rfl⟩ := List.mem_map.mp hid
        exact SortedMap.mem_values.mpr ⟨x.1, (hmem x hx).1⟩
      unfold descend
      refine Ends.bind_ok hl (Ends.bind (levels _ hids) fun candidates hcandidates => ?_)
      refine Ends.bind (selects q candidates r.branchFactor) fun picks _ =>
        Ends.foldlM_keeps (fun out hout pick _ => ?_) hout
      split
      next => exact Ends.pure hout
      next child hchild =>
        have hin := List.mem_of_getElem? hchild
        dsimp only
        refine Ends.ite (Ends.pure ?_) (ih _ (d := d + 1) ?_ (by omega) hout)
        · exact List.forall_mem_append.mpr ⟨hout, List.forall_mem_singleton.mpr (hcandidates.2 child hin _)⟩
        · obtain ⟨x, hx, hid⟩ := List.mem_map.mp (hcandidates.1 ▸ List.mem_map_of_mem hin)
          exact ⟨x.1, d, hid ▸ (hmem x hx).1, (hmem x hx).2, rfl⟩

theorem descend_spares (k : store.Keyed) (stored : ∀ id ∈ f.nodeIds, store.contains id = true)
    (hs : s.Spares) (r : Reach) (q : Query) (depth : Nat) (out : Retrieval)
    (hlevel : f.AtLevel parent d) (hfuel : f.size < fuel + d) :
    Spares (f.descend store s r q fuel parent depth out) := by
  refine Ends.imp (descend_ends (P := fun _ => True) c w (fun ids hids => ?_) hs r q depth hlevel hfuel
    fun _ _ => trivial) (fun _ _ => trivial) fun _ he => he
  obtain ⟨nodes, hnodes, hsame⟩ := NodeStore.resolveAll_of_keyed k fun id hid => stored id (hids id hid)
  rw [hnodes]
  exact Ends.pure ⟨hsame, fun _ _ _ => trivial⟩

end Walk

theorem hitsOf_of_keyed (k : store.Keyed) {ids : List String}
    (h : ∀ id ∈ ids, store.contains id = true) : ∃ hits, hitsOf store ids = .ok hits := by
  obtain ⟨nodes, hnodes, _⟩ := NodeStore.resolveAll_of_keyed k h
  exact ⟨_, by rw [hitsOf, hnodes]; rfl⟩

/-- The selectors of a traversal never report a corrupt corpus. -/
def Traversal.Spares : Traversal σ → Prop
  | .descent s => s.Spares
  | _ => True

/-- The forest names as roots only nodes that are there and ids that are stored. -/
def RootsStored (store : NodeStore) (f : Forest) : Prop :=
  ∀ p id, f.roots.get? p = some id → f.Occupied p ∧ store.contains id = true

theorem retrieve_spares (c : f.Checked) (k : store.Keyed)
    (stored : ∀ id ∈ f.nodeIds, store.contains id = true)
    (hroots : f.isEmpty = false → f.RootsStored store)
    {t : Traversal σ} (ht : t.Spares) (r : Reach) (q : Query) : Spares (f.retrieve store t r q) := by
  have hbranch : NotCorrupt (.invalid .zeroBranchFactor) := fun what h => by cases h
  have hdepth : NotCorrupt (.invalid .zeroDepthLimit) := fun what h => by cases h
  have hleaves : ∀ id ∈ f.leafIds, store.contains id = true := fun id hid =>
    stored id (List.mem_of_mem_filter hid)
  unfold retrieve
  dsimp only
  refine Spares.refuse hbranch (Spares.refuse hdepth ?_)
  split
  next => exact Spares.pure _
  next hfull =>
    have hroots : f.RootsStored store := hroots (by simpa using hfull)
    have w := c.walkable fun p ⟨id, hp⟩ => (hroots p id hp).1
    have hrootIds : ∀ id ∈ f.roots.values, store.contains id = true := by
      intro id hid
      obtain ⟨p, hp⟩ := SortedMap.mem_values.mp hid
      exact (hroots p id hp).2
    cases t with
    | leaves =>
        obtain ⟨hits, hhits⟩ := hitsOf_of_keyed k hleaves
        exact Spares.bind_ok hhits (Spares.pure _)
    | roots =>
        obtain ⟨hits, hhits⟩ := hitsOf_of_keyed k hrootIds
        exact Spares.bind_ok hhits (Spares.pure _)
    | descent s =>
        exact descend_spares c w k stored ht r q 0 {} (d := 0) rfl (by simp only [depthBound]; omega)

end Forest
end CorpusIndex
