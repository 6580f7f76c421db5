import CorpusIndex.Proofs.Action
import CorpusIndex.Proofs.Grove.Tended

/-!
# Inserting stored nodes

With collaborators that succeed, inserting a stored node ends in a tended forest or runs out of
positions. The descent ends because the depth of the node it has reached and the steps left add up to
more than the number of nodes.
-/
namespace CorpusIndex

variable {σ : Type}

/-- The summarizer answers whatever it is asked. -/
def Summarizer.Succeeds (s : Summarizer σ) : Prop :=
  ∀ texts, Ends (s.summarize texts) (fun _ => True) fun _ => False

/-- The selector answers with places among the candidates. -/
def Selector.InRange (sel : Selector σ) : Prop :=
  ∀ query candidates most, Ends (sel.select query candidates most)
    (fun picks => ∀ p ∈ picks, p.1 < candidates.length) fun _ => False

namespace Forest

variable {s : Summarizer σ} {sel : Selector σ} {tree : String} {f : Forest} {store : NodeStore}
  {pending children group : List String} {id : String} {parent : Option String} {width : Nat}

/-- The only failure left: there is no position beyond the greatest one in use. -/
def Exhausted (e : Failure) : Prop := e = .positionsExhausted

/-- A tended forest with all the nodes of `f`. -/
def Grown (tree : String) (pending : List String) (f : Forest) (g : Grove) : Prop :=
  Tended tree pending g ∧ ∀ x, f.contains x = true → g.1.contains x = true

/-! ### Single steps -/

theorem nextPosition_ends : Ends (liftM f.nextPosition : Action σ Nat)
    (fun p => f.nextPosition = .ok p) Exhausted :=
  Ends.lift (fun _ h => h) fun _ h => (nextPosition_error h).1

theorem insertUnder_ends (hid : f.contains id = false)
    (hpar : ∀ a, parent = some a → f.contains a = true) :
    Ends (liftM (f.insertUnder id parent none) : Action σ (Forest × Nat))
      (fun r => f.Graftable id parent ∅ r.2 ∧ r.1 = f.graft id parent ∅ r.2) Exhausted := by
  refine Ends.lift (fun r hr => (insertUnder_eq_ok hr).2) fun e he => ?_
  rw [insertUnder_next hid hpar] at he
  rcases bind_eq_error.mp he with he | ⟨p, _, he⟩
  · exact (nextPosition_error he).1
  · cases he

theorem summarize_ends (hs : s.Succeeds) (texts : List String) :
    Ends (s.summarize texts) (fun _ => True) Exhausted :=
  (hs texts).imp (fun _ h => h) fun _ h => h.elim

/-! ### Splitting a level -/

/-- A summary takes the place of some children of `parent` and leaves the others where they are. -/
theorem coverGroup_ends (hs : s.Succeeds) (h : Tended tree pending (f, store))
    (hpar : ∀ a, parent = some a → f.contains a = true) (group : List String)
    (hgroup : ∀ c ∈ group, ∃ q, f.nodes.get? q = some c ∧ f.IsChild parent q) :
    Ends (coverGroup s parent (f, store) group)
      (fun g => Grown tree pending f g ∧ ∀ c q, c ∉ group → f.nodes.get? q = some c →
        f.IsChild parent q → g.1.nodes.get? q = some c ∧ g.1.IsChild parent q) Exhausted := by
  have w : f.Wired := h.wellFormed.toWired
  obtain ⟨texts, htexts⟩ := textsOf_of_stored h.keyed (h.children_stored hgroup)
  have htree : f.id = tree := h.id_eq
  unfold coverGroup
  dsimp only
  refine Ends.bind_ok htexts (Ends.bind (summarize_ends hs texts) fun text _ => ?_)
  refine Ends.bind nextPosition_ends fun p hp => ?_
  rw [htree]
  have hfree := nextPosition_free hp
  obtain ⟨hnew, hfresh⟩ := h.summary_new hfree
  obtain ⟨g, hg⟩ := insertBetween_of_children w hp hnew hpar hgroup
  obtain ⟨below, _, hgraft, rfl, hbelow⟩ := insertBetween_eq_ok w hg
  have hadd : store.add [summaryNode (summaryId tree p) text group] false =
      .ok (store.put (summaryNode (summaryId tree p) text group)) := by
    refine NodeStore.add_of_fresh (by simp) fun n hn => ?_
    rw [List.mem_singleton.mp hn, summaryNode_id]
    exact hfresh
  refine Ends.bind_ok hg (Ends.bind_ok hadd (Ends.pure ⟨⟨?_, fun x hx => contains_graft.mpr (.inr hx)⟩,
    fun c q hc hq hchild => ⟨SortedMap.get?_insert_eq_some.mpr (.inr ⟨?_, hq⟩),
      hgraft.isChild_graft w hchild fun hin => ?_⟩⟩))
  · refine h.graft hgraft (NodeStore.Keyed.put h.keyed) (fun x => ?_) (fun hin => ?_) fun k hk => ?_
    · rw [NodeStore.put, NodeStore.contains_insert, summaryNode_id]
    · exact h.pending_plain _ hin p rfl
    · exact (summaryId_injective hk).symm
  · rintro rfl
    cases hq.symm.trans hfree
  · obtain ⟨c', hc', hq'⟩ := (hbelow q).mp hin
    cases hq.symm.trans hq'
    exact hc hc'

/-- A stored node enters a level, which is split if it is too wide then. -/
theorem attachAndSplit_ends (hs : s.Succeeds) (h : Tended tree (id :: pending) (f, store))
    (hpar : ∀ a, parent = some a → f.contains a = true) :
    Ends (attachAndSplit s width id parent (f, store)) (Grown tree pending f) Exhausted := by
  have hid : id ∉ pending := (List.nodup_cons.mp h.pending_nodup).1
  have hstored : store.contains id = true := h.pending_stored id (by simp)
  unfold attachAndSplit
  dsimp only
  refine Ends.bind (insertUnder_ends (h.pending_new id (by simp)) hpar) fun r hr => ?_
  obtain ⟨g, p⟩ := r
  dsimp only at hr ⊢
  obtain ⟨hgraft, rfl⟩ := hr
  have hg : Tended tree pending (f.graft id parent ∅ p, store) := by
    refine h.tail.graft hgraft h.keyed (fun x => ?_) hid fun k hk => ?_
    · exact ⟨.inr, fun hx => hx.elim (fun hx => hx ▸ hstored) fun hx => hx⟩
    · exact (h.pending_plain id (by simp) k hk).elim
  have hgrow (x : String) (hx : f.contains x = true) : (f.graft id parent ∅ p).contains x = true :=
    contains_graft.mpr (.inr hx)
  have hpar' (a : String) (ha : parent = some a) : (f.graft id parent ∅ p).contains a = true :=
    hgrow a (hpar a ha)
  obtain ⟨l, hl, hnd, hmem⟩ := childrenOf_of_present hg.wellFormed.toWired hpar'
  refine Ends.bind_ok hl ?_
  split
  · exact Ends.pure ⟨hg, hgrow⟩
  · have hfirst := coverGroup_ends hs hg hpar'
      ((l.map (·.2)).take ((l.map (·.2)).length / 2)) fun c hc => (hmem c).mp (List.mem_of_mem_take hc)
    refine Ends.bind hfirst fun g hgrown => ?_
    obtain ⟨g, store'⟩ := g
    obtain ⟨⟨hg', hgrow'⟩, hrest⟩ := hgrown
    have hsecond := coverGroup_ends hs hg' (fun a ha => hgrow' a (hpar' a ha))
      ((l.map (·.2)).drop ((l.map (·.2)).length / 2)) fun c hc => by
        obtain ⟨q, hq, hchild⟩ := (hmem c).mp (List.mem_of_mem_drop hc)
        -- the second half lost nothing to the first
        have hout : c ∉ (l.map (·.2)).take ((l.map (·.2)).length / 2) :=
          fun hin => List.disjoint_take_drop hnd (Nat.le_refl _) hin hc
        exact ⟨q, hrest c q hout hq hchild⟩
    refine hsecond.imp (fun g' hg' => ⟨hg'.1.1, fun x hx => ?_⟩) fun _ he => he
    exact hg'.1.2 x (hgrow' x (hgrow x hx))

/-! ### Down to a level of leaves and back -/

/-- Only the text of `parent` changes. -/
theorem refresh_ends (hs : s.Succeeds) (h : Tended tree pending (f, store)) {a : String}
    (ha : f.contains a = true) :
    Ends (refresh s a (f, store)) (fun g => Tended tree pending g ∧ g.1 = f) Exhausted := by
  have w : f.Wired := h.wellFormed.toWired
  have hpar : ∀ b, some a = some b → f.contains b = true := by
    rintro _ ⟨⟩
    exact ha
  obtain ⟨l, hl, _, hmem⟩ := childrenOf_of_present w hpar
  obtain ⟨texts, htexts⟩ := textsOf_of_stored h.keyed (h.children_stored fun c hc => (hmem c).mp hc)
  obtain ⟨n, hn⟩ := NodeStore.contains_iff.mp (h.stored a ha)
  unfold refresh
  dsimp only
  refine Ends.bind_ok hl (Ends.bind_ok htexts (Ends.bind (summarize_ends hs texts) fun text _ => ?_))
  have hset : store.setText a text = .ok ⟨store.nodes.insert a { n with text }⟩ := by
    rw [NodeStore.setText, NodeStore.update, NodeStore.node_eq_ok.mpr hn]
    rfl
  refine Ends.bind_ok hset (Ends.pure ⟨h.of_store ?_ fun x => ?_, rfl⟩)
  · exact NodeStore.Keyed.update h.keyed (f := fun n => { n with text }) (fun _ => rfl) hset
  · rw [NodeStore.contains_insert]
    refine or_iff_right_of_imp ?_
    rintro rfl
    exact h.stored x ha

/-- What is followed is one of the children. -/
theorem route_ends (hsel : sel.InRange) (k : store.Keyed) (hid : store.contains id = true)
    (hstored : ∀ c ∈ children, store.contains c = true) :
    Ends (route sel store id children)
      (fun chosen => ∀ c, chosen = some c → c ∈ children) Exhausted := by
  obtain ⟨candidates, hcandidates, hids⟩ := resolveAll_of_stored k hstored
  obtain ⟨n, hn⟩ := NodeStore.contains_iff.mp hid
  unfold route
  refine Ends.bind_ok hcandidates (Ends.bind_ok (NodeStore.node_eq_ok.mpr hn) ?_)
  refine Ends.bind ((hsel _ candidates 1).imp (fun _ h => h) fun _ h => h.elim) fun picks hpicks => ?_
  refine Ends.pure fun c hc => ?_
  obtain ⟨p, _, hp⟩ := Option.bind_eq_some_iff.mp hc
  obtain ⟨m, hm, rfl⟩ := Option.map_eq_some_iff.mp hp
  rw [← hids]
  exact List.mem_map_of_mem (List.mem_of_getElem? hm)

/-- The steps left are enough to descend from `parent` as deep as the forest goes. -/
def Affords (f : Forest) (fuel : Nat) : Option String → Prop
  | none => f.size < fuel
  | some a => ∃ q d, f.nodes.get? q = some a ∧ f.Depth q d ∧ f.size < fuel + (d + 1)

theorem Affords.child {fuel q : Nat} {c : String} (h : f.Affords (fuel + 1) parent)
    (hq : f.nodes.get? q = some c) (hc : f.IsChild parent q) : f.Affords fuel (some c) := by
  cases parent with
  | none =>
      have hsize : f.size < fuel + 1 := h
      exact ⟨q, 0, hq, .root hc, by omega⟩
  | some a =>
      obtain ⟨r, d, hr, hd, hsize⟩ := h
      exact ⟨q, d + 1, hq, hd.child ⟨a, hr, hc⟩, by omega⟩

theorem Affords.ne_zero (w : f.Wired) (h : f.Affords 0 parent) : False := by
  cases parent with
  | none => exact Nat.not_lt_zero _ h
  | some a =>
      obtain ⟨q, d, _, hd, hsize⟩ := h
      have := w.depth_lt_size hd
      omega

/-- Above what came in, the node at `parent` is summarized anew. -/
theorem refreshAbove_ends (hs : s.Succeeds) (hpar : ∀ a, parent = some a → f.contains a = true) {g : Grove}
    (hg : Grown tree pending f g) : Ends (match parent with
      | some a => refresh s a g
      | none => pure g) (Grown tree pending f) Exhausted := by
  obtain ⟨g, store'⟩ := g
  cases parent with
  | none => exact Ends.pure hg
  | some a =>
      have hrefresh := refresh_ends hs hg.1 (hg.2 a (hpar a rfl))
      refine hrefresh.imp (fun g' hg' => ⟨hg'.1, ?_⟩) fun _ he => he
      rw [hg'.2]
      exact hg.2

/-- An id goes down below the child that was chosen, and else joins the children of `parent`. -/
theorem insertAlong_ends (hs : s.Succeeds) (h : Tended tree (id :: pending) (f, store))
    (hpar : ∀ a, parent = some a → f.contains a = true) {fuel : Nat} {chosen : Option String}
    (hdown : ∀ c, chosen = some c →
      Ends (insertNode s sel width id fuel (some c) (f, store)) (Grown tree pending f) Exhausted) :
    Ends (match chosen with
      | some child => do
        let g ← insertNode s sel width id fuel (some child) (f, store)
        match parent with
          | some a => refresh s a g
          | none => pure g
      | none => do
        let g ← attachAndSplit s width id parent (f, store)
        match parent with
          | some a => refresh s a g
          | none => pure g) (Grown tree pending f) Exhausted := by
  cases chosen with
  | none => exact Ends.bind (attachAndSplit_ends hs h hpar) fun _ hg => refreshAbove_ends hs hpar hg
  | some c => exact Ends.bind (hdown c rfl) fun _ hg => refreshAbove_ends hs hpar hg

/-- Inserting a stored node below `parent`, or below the roots. -/
theorem insertNode_ends (hs : s.Succeeds) (hsel : sel.InRange)
    (h : Tended tree (id :: pending) (f, store)) (fuel : Nat)
    (hpar : ∀ a, parent = some a → f.contains a = true) (hfuel : f.Affords fuel parent) :
    Ends (insertNode s sel width id fuel parent (f, store)) (Grown tree pending f) Exhausted := by
  have w : f.Wired := h.wellFormed.toWired
  induction fuel generalizing parent with
  | zero => exact (hfuel.ne_zero w).elim
  | succ fuel ih =>
      obtain ⟨l, hl, _, hmem⟩ := childrenOf_of_present w hpar
      have hdown : ∀ c ∈ l.map (·.2),
          Ends (insertNode s sel width id fuel (some c) (f, store)) (Grown tree pending f) Exhausted := by
        intro c hc
        obtain ⟨q, hq, hchild⟩ := (hmem c).mp hc
        refine ih ?_ (hfuel.child hq hchild)
        rintro _ ⟨⟩
        exact w.contains_iff.mpr ⟨q, hq⟩
      have hstored : ∀ c ∈ l.map (·.2), store.contains c = true :=
        h.children_stored fun c hc => (hmem c).mp hc
      unfold insertNode
      refine Ends.bind_ok hl ?_
      refine Ends.ite ?_ ?_
      · have hnone : Ends (pure none : Action σ (Option String))
            (fun chosen => ∀ c, chosen = some c → c ∈ l.map (·.2)) Exhausted := Ends.pure (by simp)
        exact Ends.bind hnone fun _ hchosen => insertAlong_ends hs h hpar fun c hc => hdown c (hchosen c hc)
      · have hroute := route_ends hsel h.keyed (h.pending_stored id (by simp)) hstored
        exact Ends.bind hroute fun _ hchosen => insertAlong_ends hs h hpar fun c hc => hdown c (hchosen c hc)

/-- Stored nodes inserted one after another. -/
theorem insertAll_ends (hs : s.Succeeds) (hsel : sel.InRange) {g : Grove} (h : Tended tree pending g) :
    Ends (insertAll s sel width pending g) (Tended tree []) Exhausted := by
  induction pending generalizing g with
  | nil => exact Ends.pure h
  | cons id pending ih =>
      obtain ⟨f, store⟩ := g
      have hfuel : f.Affords f.depthBound none := by
        change f.size < f.size + 4096
        omega
      unfold insertAll
      refine Ends.bind (insertNode_ends hs hsel h f.depthBound (by simp) hfuel) fun g hg => ih hg.1

/-- New nodes, none of them with the id of a summary of the tree. -/
structure Fresh (tree : String) (store : NodeStore) (batch : List Node) : Prop where
  nodup : (batch.map (·.id)).Nodup
  new : ∀ n ∈ batch, store.contains n.id = false
  plain : ∀ n ∈ batch, ∀ k, n.id ≠ summaryId tree k

/-- A batch enters the store ahead of the forest. -/
theorem Tended.put {batch : List Node} (h : Tended tree [] (f, store)) (hb : Fresh tree store batch) :
    Tended tree (batch.map (·.id)) (f, batch.foldl NodeStore.put store) := by
  have hstore (x : String) : (batch.foldl NodeStore.put store).contains x = true ↔
      x ∈ batch.map (·.id) ∨ store.contains x = true := NodeStore.contains_foldl_put hb.nodup
  refine ⟨h.id_eq, h.wellFormed, NodeStore.Keyed.foldl_put h.keyed,
    fun x hx => (hstore x).mpr (.inr (h.stored x hx)), fun k hk => ?_, hb.nodup,
    fun x hx => (hstore x).mpr (.inl hx), fun x hx => ?_, fun x hx k => ?_⟩
  · rcases (hstore _).mp hk with hk | hk
    · obtain ⟨n, hn, heq⟩ := List.mem_map.mp hk
      exact (hb.plain n hn k heq).elim
    · exact h.inPlace k hk
  · obtain ⟨n, hn, rfl⟩ := List.mem_map.mp hx
    rw [← Bool.not_eq_true]
    intro hc
    cases (h.stored _ hc).symm.trans (hb.new n hn)
  · obtain ⟨n, hn, rfl⟩ := List.mem_map.mp hx
    exact hb.plain n hn k

/-- A batch of new nodes is inserted, unless the width is refused or positions run out. -/
theorem grow_ends {batch : List Node} {g : Grove} (hs : s.Succeeds) (hsel : sel.InRange)
    (h : Tended tree [] g) (hb : Fresh tree g.2 batch) :
    Ends (grow s sel width batch g) (Tended tree [])
      fun e => Exhausted e ∨ e = .invalid (.tooFewChildren width) := by
  obtain ⟨f, store⟩ := g
  have hwidth : Ends (liftM (checkWidth width) : Action σ Unit) (fun _ => True)
      fun e => Exhausted e ∨ e = .invalid (.tooFewChildren width) := by
    refine Ends.lift (fun _ _ => trivial) fun e he => ?_
    unfold checkWidth at he
    split at he
    · exact .inr (Except.error.inj he).symm
    · cases he
  unfold grow
  refine Ends.bind hwidth fun _ _ => Ends.bind_ok (NodeStore.add_of_fresh hb.nodup hb.new) ?_
  exact (insertAll_ends hs hsel (h.put hb)).imp (fun _ hg => hg) fun _ he => .inl he

end Forest
end CorpusIndex
