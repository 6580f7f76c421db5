import CorpusIndex.Proofs.Grove.Extension

/-!
# Children on record

A summary is stored with links to the children it was made for, and no later step touches its links. In the
forest it may get other children since: nodes attached below it, and summaries that take over children of
its own. They all stand at positions after its own, so the links and the forest agree on the children of a
summary exactly as long as these stand before it.
-/
namespace CorpusIndex.Forest

variable {σ : Type} {s : Summarizer σ} {t : Terms} {tree : String} {f : Forest} {g : Grove}
  {store given : NodeStore} {n : Node} {a c id : String} {parent : Option String}
  {adopted : SortedSet Nat} {cs group : List String} {p r : Nat}

/-! ### The links of a summary -/

theorem mem_children_addLink : c ∈ (n.addLink .child a).children ↔ c ∈ n.children ∨ c = a := by
  have hlinks : (n.addLink .child a).children =
      if n.children.contains a then n.children else n.children ++ [a] := by
    rw [Node.children, Node.linked, Node.addLink, SortedMap.getD_eq, SortedMap.get?_insert_self]
    rfl
  rw [hlinks]
  split
  next hin =>
    refine (or_iff_left_of_imp ?_).symm
    rintro rfl
    simpa using hin
  next => simp

theorem mem_children_summaryNode {text : String} : c ∈ (summaryNode id text cs).children ↔ c ∈ cs := by
  have hfold : ∀ {cs : List String} {n : Node},
      c ∈ (cs.foldl (fun n c => n.addLink .child c) n).children ↔ c ∈ n.children ∨ c ∈ cs := by
    intro cs
    induction cs with
    | nil => simp
    | cons d cs ih =>
        intro n
        rw [List.foldl_cons, ih, mem_children_addLink, List.mem_cons, or_assoc]
  rw [summaryNode, hfold]
  exact or_iff_right List.not_mem_nil

/-- The links of a node at `p` lead to nodes before it, among them all children it still has before it. They
lead to none but its children while these all stand before it. -/
structure Linked (f : Forest) (n : Node) (a : String) (p : Nat) : Prop where
  before : ∀ c ∈ n.children, ∃ q < p, f.nodes.get? q = some c
  listed : ∀ q c, f.nodes.get? q = some c → f.Holds a q → q < p → c ∈ n.children
  held : (∀ q, f.Holds a q → q < p) → ∀ q c, f.nodes.get? q = some c → c ∈ n.children → f.Holds a q

/-- The links of a stored node to children lead to its children in the forest. -/
def Recorded (g : Grove) (a : String) : Prop :=
  ∃ n l, g.2.nodes.get? a = some n ∧ g.1.childrenOf (some a) = .ok l ∧
    ∀ c, c ∈ n.children ↔ c ∈ l.map (·.2)

/-- Links and forest agree as long as the children stand before the node. -/
theorem Linked.recorded_iff (w : g.1.Wired) (hn : g.2.nodes.get? a = some n)
    (hp : g.1.nodes.get? p = some a) (h : Linked g.1 n a p) :
    Recorded g a ↔ ∀ q, g.1.Holds a q → q < p := by
  have hpar : ∀ b, some a = some b → g.1.contains b = true := by
    rintro _ ⟨⟩
    exact w.contains_iff.mpr ⟨p, hp⟩
  obtain ⟨l, hread, hl⟩ := siblings_of_present w hpar
  constructor
  · rintro ⟨m, l', hm, hread', hsame⟩ q hq
    cases hn.symm.trans hm
    cases hread.symm.trans hread'
    obtain ⟨c, hc⟩ := w.occupied a q hq
    obtain ⟨q', hlt, hq'⟩ := h.before c ((hsame c).mpr (hl.mem_ids.mpr ⟨q, hc, hq⟩))
    rwa [w.position_eq hc hq']
  · intro hbefore
    refine ⟨n, l, hn, hread, fun c => ?_⟩
    rw [hl.mem_ids]
    constructor
    · intro hc
      obtain ⟨q, _, hq⟩ := h.before c hc
      exact ⟨q, hq, h.held hbefore q c hq hc⟩
    · rintro ⟨q, hq, hchild⟩
      exact h.listed q c hq hchild (hbefore q hchild)

/-! ### Grafts -/

section Graft
variable (hg : f.Graftable id parent adopted p) (w : f.Wired) (hp : f.nextPosition = .ok p)
include hg w hp

/-- A new node leaves the links of the others right: if it joins one of them, it stands after that. -/
theorem Linked.graft (ha : f.nodes.get? r = some a) (h : Linked f n a r) :
    Linked (f.graft id parent adopted p) n a r := by
  have hlt : r < p := lt_nextPosition hp ha
  have hne : a ≠ id := hg.ne_of_node w ha
  refine ⟨fun c hc => ?_, fun q c hq hchild hqr => ?_, fun hbefore q c hq hc => ?_⟩
  · obtain ⟨q, hqr, hq⟩ := h.before c hc
    exact ⟨q, hqr, hg.keeps_node hq⟩
  · have hqp : q ≠ p := by omega
    rcases (hg.holds_graft w).mp hchild with ⟨hid, _⟩ | ⟨_, hqp'⟩ | ⟨hold, _⟩
    · exact (hne hid).elim
    · exact (hqp hqp').elim
    · exact h.listed q c ((SortedMap.get?_insert_of_ne _ _ hqp).symm.trans hq) hold hqr
  · -- the new node would be a child after `a`
    have hpar : parent ≠ some a := by
      intro hpar
      have := hbefore p ((hg.holds_graft w).mpr (.inr (.inl ⟨hpar, rfl⟩)))
      omega
    have hstays {q : Nat} : (f.graft id parent adopted p).Holds a q ↔ f.Holds a q :=
      hg.holds_graft_of_ne w hne hpar
    obtain ⟨q', _, hq'⟩ := h.before c hc
    cases (hg.wired_graft w).position_eq hq (hg.keeps_node hq')
    exact hstays.mpr (h.held (fun r hr => hbefore r (hstays.mpr hr)) q c hq' hc)

/-- A new node with links to what it adopts. -/
theorem linked_graft (hadopts : ∀ q, q ∈ adopted ↔ ∃ c ∈ group, f.nodes.get? q = some c)
    (hordered : f.InOrder group) (hlinks : ∀ c, c ∈ n.children ↔ c ∈ group) :
    Linked (f.graft id parent adopted p) n id p := by
  have hplaced (c : String) (hc : c ∈ group) : ∃ q < p, f.nodes.get? q = some c ∧
      (f.graft id parent adopted p).nodes.get? q = some c := by
    obtain ⟨l, hl, rfl⟩ := hordered
    obtain ⟨e, he, rfl⟩ := List.mem_map.mp hc
    exact ⟨e.1, lt_nextPosition hp (hl.nodes e he), hl.nodes e he, hg.keeps_node (hl.nodes e he)⟩
  refine ⟨fun c hc => ?_, fun q c hq hchild _ => ?_, fun _ q c hq hc => ?_⟩
  · obtain ⟨q, hlt, _, hq⟩ := hplaced c ((hlinks c).mp hc)
    exact ⟨q, hlt, hq⟩
  · obtain ⟨d, hd, hqd⟩ := (hadopts q).mp ((hg.holds_graft_self w).mp hchild)
    obtain ⟨q', _, hold, hq'⟩ := hplaced d hd
    cases w.position_eq hqd hold
    cases hq.symm.trans hq'
    exact (hlinks c).mpr hd
  · obtain ⟨q', _, hold, hq'⟩ := hplaced c ((hlinks c).mp hc)
    cases (hg.wired_graft w).position_eq hq hq'
    exact (hg.holds_graft_self w).mpr ((hadopts q).mpr ⟨c, (hlinks c).mp hc, hold⟩)

end Graft

/-! ### Runs -/

/-- The links of every summary of the forest are right. -/
def Links (given : NodeStore) (g : Grove) : Prop :=
  ∀ a p, g.1.nodes.get? p = some a → given.contains a = false →
    ∃ n, g.2.nodes.get? a = some n ∧ Linked g.1 n a p

/-- Children stand before the node they are below. -/
def Upward (f : Forest) : Prop := ∀ a p q, f.nodes.get? p = some a → f.Holds a q → q < p

theorem Links.setSummary (h : Links given (f, store)) (summary : Option String) :
    Links given ({ f with summary }, store) := by
  intro a p hp ha
  obtain ⟨n, hn, hlinked⟩ := h a p hp ha
  exact ⟨n, hn, hlinked.before, hlinked.listed, hlinked.held⟩

theorem Links.attach (h : Links given (f, store)) (w : f.Wired) (hid : given.contains id = true)
    (hp : f.nextPosition = .ok p) (hg : f.Graftable id parent ∅ p) :
    Links given (f.graft id parent ∅ p, store) := by
  intro a r hr ha
  rcases SortedMap.get?_insert_eq_some.mp hr with ⟨_, rfl⟩ | ⟨_, hr⟩
  · cases hid.symm.trans ha
  · obtain ⟨n, hn, hlinked⟩ := h a r hr ha
    exact ⟨n, hn, hlinked.graft hg w hp hr⟩

theorem Covered.links {g' : Grove} (hc : Covered t parent group p g g') (h : Links given g)
    (w : g.1.Wired) : Links given g' := by
  intro a r hr ha
  have hnodes {x : String} (hx : g.1.contains x = true) := (hc.keeps_nodes hx).2
  cases hc with
  | @mk f store adopted text next graft adopts ordered answer =>
      rcases SortedMap.get?_insert_eq_some.mp hr with ⟨rfl, rfl⟩ | ⟨_, hr⟩
      · refine ⟨summaryNode (summaryId f.id r) text group, ?_, ?_⟩
        · exact SortedMap.get?_insert_eq_some.mpr (.inl ⟨(summaryNode_id ..).symm, rfl⟩)
        · exact linked_graft graft w next adopts ordered fun c => mem_children_summaryNode
      · obtain ⟨n, hn, hlinked⟩ := h a r hr ha
        exact ⟨n, (hnodes (w.contains_iff.mpr ⟨r, hr⟩)).trans hn, hlinked.graft graft w next hr⟩

theorem stable_links (hid : given.contains id = true) : Stable t id (Links given) where
  attach hg h _ hp hgraft := h.attach hg.wellFormed.toWired hid hp hgraft
  cover hg h hc := by
    obtain ⟨p, hc, _⟩ := hc
    exact hc.links h hg.wellFormed.toWired
  rewrite {f store b m} text _ h _ hm := by
    intro a p hp ha
    obtain ⟨n, hn, hlinked⟩ := h a p hp ha
    by_cases hab : a = b
    · subst hab
      cases hm.symm.trans hn
      exact ⟨{ m with text }, SortedMap.get?_insert_self .., ⟨hlinked.before, hlinked.listed, hlinked.held⟩⟩
    · exact ⟨n, (SortedMap.get?_insert_of_ne _ _ hab).trans hn, hlinked⟩

theorem Upward.graft (h : Upward f) (w : f.Wired) (hp : f.nextPosition = .ok p)
    (hg : f.Graftable id none adopted p) (hadopted : ∀ q ∈ adopted, ∃ c, f.nodes.get? q = some c) :
    Upward (f.graft id none adopted p) := by
  intro a r q hr hq
  rcases (hg.holds_graft w).mp hq with ⟨rfl, hin⟩ | ⟨hnone, _⟩ | ⟨hold, _⟩
  · obtain ⟨c, hc⟩ := hadopted q hin
    rcases SortedMap.get?_insert_eq_some.mp hr with ⟨rfl, _⟩ | ⟨_, hr⟩
    · exact lt_nextPosition hp hc
    · cases (w.contains_iff.mpr ⟨r, hr⟩).symm.trans hg.fresh
  · cases hnone
  · rcases SortedMap.get?_insert_eq_some.mp hr with ⟨_, rfl⟩ | ⟨_, hr⟩
    · exact (hg.not_holds w hold).elim
    · exact h a r q hr hold

/-- In a build every summary enters above nodes that are there. -/
theorem builds_links (t : Terms) (store : NodeStore) :
    Builds t store fun _ _ g => Links store g ∧ Upward g.1 where
  plant {f done id p} hg h _ hid hp hgraft := by
    have w : f.Wired := hg.wellFormed.toWired
    exact ⟨h.1.attach w hid hp hgraft, h.2.graft w hp hgraft (by simp)⟩
  turn _ h := h
  cover {g g' done group rest p} hg h _ hc := by
    have w : g.1.Wired := hg.wellFormed.toWired
    refine ⟨hc.links h.1 w, ?_⟩
    cases hc with
    | mk next graft adopts ordered answer =>
        exact h.2.graft w next graft fun q hq => by
          obtain ⟨c, _, hc⟩ := (adopts q).mp hq
          exact ⟨c, hc⟩

theorem links_empty (tree : String) (store : NodeStore) :
    Links store ({ id := tree }, store) ∧ Upward { id := tree } :=
  ⟨fun _ _ hp => by simp at hp, fun _ _ _ hp => by simp at hp⟩

theorem lasting_links (t : Terms) (tree : String) : Lasting t tree Links where
  built {store} _ := ⟨_, builds_links t store, links_empty tree store, fun _ h _ => h.1.setSummary _⟩
  entered {given g batch} hnd _ _ _ h := by
    intro a p hp ha
    rw [← Bool.not_eq_true, NodeStore.contains_foldl_put hnd, not_or, Bool.not_eq_true] at ha
    obtain ⟨n, hn, hlinked⟩ := h a p hp ha.2
    exact ⟨n, (NodeStore.get?_foldl_put hnd).mpr (.inr ⟨ha.1, hn⟩), hlinked⟩
  inserted _ hid _ hg h hinserted := hinserted.keeps (stable_links hid) hg h

/-- A build leaves links and forest in agreement. -/
theorem links_agree_after_build {leaves : List Node} {width : Nat} {st st' : σ} (hk : store.Keyed)
    (hrun : (build s width tree leaves store).run st = (.ok g, st')) (ha : g.1.contains a = true)
    (hnew : store.contains a = false) : Recorded g a := by
  have hs : s.Within fun _ _ => True := fun _ => Ends.any _
  obtain ⟨_, store'⟩ := g
  obtain ⟨f, summary, level, rfl, hg, ⟨hlinks, hup⟩, _⟩ :=
    (build_keeps (t := {}) hs (builds_links {} store) hk (links_empty tree store) False.elim).of_run hrun
  have w := (hg.setSummary summary).wellFormed.toWired
  obtain ⟨p, hp⟩ := w.contains_iff.mp ha
  obtain ⟨n, hn, hlinked⟩ := hlinks.setSummary summary a p hp hnew
  exact (hlinked.recorded_iff w hn hp).mpr fun q hq => hup a p q hp hq

/-- All along a run the links of a summary stay as they were made: they lead to nodes that stand before it,
among them all its children that do, and they agree with the forest exactly as long as it has no other
children. -/
theorem links_agree_while_children_stand_before (h : Extended t tree given g)
    (hp : g.1.nodes.get? p = some a) (hnew : given.contains a = false) :
    (∃ n, g.2.nodes.get? a = some n ∧ (∀ c ∈ n.children, ∃ q < p, g.1.nodes.get? q = some c) ∧
      ∀ q c, g.1.nodes.get? q = some c → g.1.Holds a q → q < p → c ∈ n.children) ∧
    (Recorded g a ↔ ∀ q, g.1.Holds a q → q < p) := by
  obtain ⟨hg, _, hlinks⟩ := h.lasts (lasting_links t tree)
  obtain ⟨n, hn, hlinked⟩ := hlinks a p hp hnew
  exact ⟨⟨n, hn, hlinked.before, hlinked.listed⟩, hlinked.recorded_iff hg.wellFormed.toWired hn hp⟩

/-- After the fourth node has joined the second summary, the links of the first agree with the forest and
those of the second do not. -/
theorem links_agree_while_children_stand_before_lengthened : ∃ g, lengthened = .ok g ∧
    Recorded g (summaryId "t" 3) ∧ ¬ Recorded g (summaryId "t" 4) := by
  have hstands : lengthened.toOption.map (fun g => (g.1.nodes.get? 3, g.1.nodes.get? 4,
      (g.1.children.getD (summaryId "t" 3) ∅).elems, (g.1.children.getD (summaryId "t" 4) ∅).elems)) =
        some (some (summaryId "t" 3), some (summaryId "t" 4), [0, 1], [2, 5]) := by decide +kernel
  have hnew : (threeStored.put fourthNode).contains (summaryId "t" 3) = false ∧
      (threeStored.put fourthNode).contains (summaryId "t" 4) = false := by decide
  obtain ⟨g, hrun, hread⟩ := map_toOption_eq_some.mp hstands
  simp only [Prod.mk.injEq] at hread
  obtain ⟨hthird, hfourth, hfirst, hlast⟩ := hread
  have hextended : Extended {} "t" (threeStored.put fourthNode) g :=
    extended_lengthened (fun _ => Ends.any _) hrun
  have hbefore := links_agree_while_children_stand_before hextended hthird hnew.1
  have hafter := links_agree_while_children_stand_before hextended hfourth hnew.2
  refine ⟨g, hrun, hbefore.2.mpr fun q hq => ?_, fun hrecorded => ?_⟩
  · have hmem := SortedSet.mem_elems.mpr hq
    rw [hfirst] at hmem
    simp at hmem
    omega
  · have hmem : 5 ∈ (g.1.children.getD (summaryId "t" 4) ∅).elems := by
      rw [hlast]
      decide
    have := hafter.2.mp hrecorded 5 (SortedSet.mem_elems.mp hmem)
    omega

/-- An insertion into a built tree leaves a summary without a link to its new child, although its leaves had
no links to children. -/
theorem insertion_leaves_new_child_unlinked : ∃ g g' : Grove,
    (build joining 2 "t" threeNodes threeStored).run () = (.ok g, ()) ∧
    (grow joining followingLast 2 [fourthNode] g).run () = (.ok g', ()) ∧
    (∀ n ∈ fourthNode :: threeNodes, n.children = []) ∧
    (g'.2.nodes.get? (summaryId "t" 4)).map (·.children) = some ["c"] ∧
    g'.1.childrenOf (some (summaryId "t" 4)) = .ok [(2, "c"), (5, "d")] := by
  have hlinks : lengthened.toOption.map (fun g => ((g.2.nodes.get? (summaryId "t" 4)).map (·.children),
      (g.1.childrenOf (some (summaryId "t" 4))).toOption)) = some (some ["c"], some [(2, "c"), (5, "d")]) := by
    decide +kernel
  obtain ⟨g', hrun, hread⟩ := map_toOption_eq_some.mp hlinks
  obtain ⟨hlinked, hchildren⟩ := Prod.mk.inj hread
  obtain ⟨g, hbuild, hgrow⟩ := bind_eq_ok.mp hrun
  exact ⟨g, g', Prod.ext hbuild rfl, Prod.ext hgrow rfl, by decide, hlinked, toOption_eq_some.mp hchildren⟩

end CorpusIndex.Forest
