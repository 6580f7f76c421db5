import CorpusIndex.Proofs.Grove.Extension

/-!
# Summaries that are current

The text of a node with children is what the summarizer answers to the texts of its children, in position
order. An insertion attaches its node at one level and writes the summaries above it anew, from below. On the
way up exactly one text can be out of date, that of the parent of what was written last (`Inserted.settles`);
above the roots there is none.
-/
namespace CorpusIndex.Forest

variable {t : Terms} {tree : String} {f : Forest} {store store' given : NodeStore} {g g' : Grove}
  {a b c id : String} {parent : Option String} {adopted : SortedSet Nat} {group ids : List String}
  {stale stale' : String → Prop} {width p q : Nat}

/-- The text of a node is an answer to the texts of its children. -/
def Current (t : Terms) (g : Grove) (a : String) : Prop :=
  ∃ n l texts, g.2.nodes.get? a = some n ∧ g.1.Siblings (some a) l ∧
    textsOf g.2 (l.map (·.2)) = .ok texts ∧ t.answers texts n.text

/-- Nodes with children are current, but for some that may be stale. -/
def Settled (t : Terms) (stale : String → Prop) (g : Grove) : Prop :=
  ∀ a, (∃ q, g.1.Holds a q) → ¬ stale a → Current t g a

theorem Settled.mono (h : Settled t stale g) (himp : ∀ a, stale a → stale' a) : Settled t stale' g :=
  fun a ha hfresh => h a ha fun hstale => hfresh (himp a hstale)

theorem textsOf_congr (h : ∀ c ∈ ids, store'.nodes.get? c = store.nodes.get? c) :
    textsOf store' ids = textsOf store ids := by
  have hresolve : store'.resolveAll ids = store.resolveAll ids := by
    induction ids with
    | nil => rfl
    | cons c ids ih =>
        have hc : store'.resolve c = store.resolve c := by
          rw [NodeStore.resolve, h c (by simp), NodeStore.resolve]
        have hids := ih fun d hd => h d (by simp [hd])
        simp only [NodeStore.resolveAll, List.mapM_cons, hc] at hids ⊢
        rw [hids]
  rw [textsOf, hresolve, textsOf]

/-! ### The store alone -/

/-- Stores that agree on the nodes of the forest agree on what is current. -/
theorem Current.of_store (w : f.Wired) (ha : f.contains a = true)
    (hsame : ∀ x, f.contains x = true → store'.nodes.get? x = store.nodes.get? x)
    (h : Current t (f, store) a) : Current t (f, store') a := by
  obtain ⟨n, l, texts, hn, hl, htexts, hanswer⟩ := h
  refine ⟨n, l, texts, (hsame a ha).trans hn, hl, (textsOf_congr fun c hc => ?_).trans htexts, hanswer⟩
  obtain ⟨q, hq, _⟩ := hl.mem_ids.mp hc
  exact hsame c (w.contains_iff.mpr ⟨q, hq⟩)

theorem Settled.of_store (w : f.Wired)
    (hsame : ∀ x, f.contains x = true → store'.nodes.get? x = store.nodes.get? x)
    (h : Settled t stale (f, store)) : Settled t stale (f, store') := by
  rintro a ⟨q, hq⟩ hfresh
  exact (h a ⟨q, hq⟩ hfresh).of_store w (w.contains_iff.mpr (w.holds_present hq)) hsame

theorem Settled.setSummary (h : Settled t stale (f, store)) (summary : Option String) :
    Settled t stale ({ f with summary }, store) := by
  intro a ha hfresh
  obtain ⟨n, l, texts, hn, hl, hread⟩ := h a ha hfresh
  exact ⟨n, l, texts, hn, ⟨⟨hl.positions, hl.nodes⟩, hl.children⟩, hread⟩

/-! ### Grafts -/

section Graft
variable (hpar : ∀ a, parent = some a → stale a)
include hpar

/-- A node that is attached makes its parent stale. -/
theorem Settled.attach (hg : f.Graftable id parent ∅ p) (w : f.Wired) (h : Settled t stale (f, store)) :
    Settled t stale (f.graft id parent ∅ p, store) := by
  rintro a ⟨q, hq⟩ hfresh
  have hp : parent ≠ some a := fun hp => hfresh (hpar a hp)
  have hne : a ≠ id := by
    rintro rfl
    exact SortedSet.not_mem_empty q ((hg.holds_graft_self w).mp hq)
  have hold : f.Holds a q := (hg.holds_graft_of_ne w hne hp).mp hq
  obtain ⟨n, l, texts, hn, hl, hread⟩ := h a ⟨q, hold⟩ hfresh
  exact ⟨n, l, texts, hn, hl.graft_of_ne hg w hne hp, hread⟩

/-- A new summary is current, and makes its parent stale. -/
theorem Covered.settles (hc : Covered t parent group p g g') (ht : t.current) (w : g.1.Wired)
    (h : Settled t stale g) : Settled t stale g' := by
  have hsame (x : String) (hx : g.1.contains x = true) : g'.2.nodes.get? x = g.2.nodes.get? x :=
    (hc.keeps_nodes hx).2
  cases hc with
  | @mk f store adopted text next graft adopts ordered answer =>
  rintro a ⟨q, hq⟩ hfresh
  have hp : parent ≠ some a := fun hp => hfresh (hpar a hp)
  by_cases hid : a = summaryId f.id p
  · subst hid
    obtain ⟨l, hl, rfl⟩ := ordered
    obtain ⟨texts, htexts, hanswer⟩ := answer ht
    refine ⟨summaryNode (summaryId f.id p) text (l.map (·.2)), l, texts, ?_, hl.siblings_graft graft w adopts,
      (textsOf_congr fun c hc => ?_).trans htexts, by rwa [summaryNode_text]⟩
    · exact SortedMap.get?_insert_eq_some.mpr (.inl ⟨(summaryNode_id ..).symm, rfl⟩)
    · obtain ⟨e, he, rfl⟩ := List.mem_map.mp hc
      exact hsame e.2 (w.contains_iff.mpr ⟨e.1, hl.nodes e he⟩)
  · have hold : f.Holds a q := (graft.holds_graft_of_ne w hid hp).mp hq
    have hcurrent := (h a ⟨q, hold⟩ hfresh).of_store w (w.contains_iff.mpr (w.holds_present hold)) hsame
    obtain ⟨n, l, texts, hn, hl, hread⟩ := hcurrent
    exact ⟨n, l, texts, hn, hl.graft_of_ne graft w hid hp, hread⟩

theorem Attached.settles (h : Attached t width id parent g g') (ht : t.current) (hg : Grounded g)
    (hs : Settled t stale g) : Settled t stale g' := by
  cases h with
  | fits stored next graft => exact hs.attach hpar graft hg.wellFormed.toWired
  | split stored next graft siblings wide left right =>
      have hgraft := hg.graft graft stored
      have hattached := hs.attach hpar graft hg.wellFormed.toWired
      obtain ⟨first, left, _⟩ := left
      obtain ⟨second, right, _⟩ := right
      have hleft := left.settles hpar ht hgraft.wellFormed.toWired hattached
      exact right.settles hpar ht (left.grounded hgraft).wellFormed.toWired hleft

end Graft

/-! ### A summary written anew -/

/-- The parent of what is written is current afterwards, and the node above it may be stale. -/
theorem Refreshed.settles (h : Refreshed t parent g g') (hg : Grounded g)
    (hs : Settled t (fun a => parent = some a) g) :
    Settled t (fun a => ∃ b q, parent = some b ∧ g.1.nodes.get? q = some b ∧ g.1.Holds a q) g' := by
  cases h with
  | roots => exact hs.mono fun a ha => by cases ha
  | @above f store b text n l texts siblings read answer stored =>
      have hother {x : String} (hx : x ≠ b) :
          (store.nodes.insert b { n with text }).get? x = store.nodes.get? x :=
        SortedMap.get?_insert_of_ne _ _ hx
      intro a ha hfresh
      by_cases hab : a = b
      · subst hab
        refine ⟨{ n with text }, l, texts, SortedMap.get?_insert_self .., siblings,
          (textsOf_congr fun c hc => hother ?_).trans read, answer⟩
        rintro rfl
        obtain ⟨q, hq, hchild⟩ := siblings.mem_ids.mp hc
        exact hg.wellFormed.not_holds_self hq hchild
      · obtain ⟨m, l', texts', hm, hl', hread, hanswer⟩ := hs a ha fun hb => hab (Option.some.inj hb).symm
        refine ⟨m, l', texts', (hother hab).trans hm, hl',
          (textsOf_congr fun c hc => hother ?_).trans hread, hanswer⟩
        rintro rfl
        obtain ⟨q, hq, hchild⟩ := hl'.mem_ids.mp hc
        exact hfresh ⟨c, q, rfl, hq, hchild⟩

/-! ### Where a node arrives

What is above the level where a node arrives keeps its place: only children of that level are adopted, and
these are deeper. -/

theorem Graftable.holds_iff_outside (h : f.Graftable id parent adopted p) (w : f.Wired)
    (hq : f.nodes.get? q = some c) (hout : ¬ f.IsChild parent q) :
    (f.graft id parent adopted p).Holds a q ↔ f.Holds a q := by
  have hadopted : q ∉ adopted := fun hin => hout (h.adopted_below q hin)
  have hne : q ≠ p := by
    rintro rfl
    cases h.free.symm.trans hq
  simp [h.holds_graft w, hadopted, hne]

theorem Covered.holds_iff_outside (h : Covered t (some b) group p g g') (w : g.1.Wired)
    (hq : g.1.nodes.get? q = some c) (hout : ¬ g.1.Holds b q) : g'.1.Holds a q ↔ g.1.Holds a q := by
  cases h with
  | mk next graft adopts ordered answer => exact graft.holds_iff_outside w hq hout

theorem stable_node (t : Terms) (id c : String) (q : Nat) :
    Stable t id fun g => g.1.nodes.get? q = some c where
  attach _ hq _ _ hgraft := hgraft.keeps_node hq
  cover _ hq h := by
    obtain ⟨p, hcover, _⟩ := h
    cases hcover with
    | mk next graft adopts ordered answer => exact graft.keeps_node hq
  rewrite _ _ hq _ _ := hq

/-- Positions outside the level that is joined stay below the nodes they are below. -/
theorem Attached.holds_iff_outside (h : Attached t width id (some b) g g') (hg : Grounded g)
    (hq : g.1.nodes.get? q = some c) (hout : ¬ g.1.Holds b q) : g'.1.Holds a q ↔ g.1.Holds a q := by
  have w := hg.wellFormed.toWired
  cases h with
  | fits stored next graft => exact graft.holds_iff_outside w hq hout
  | split stored next graft siblings wide left right =>
      have hgraft := hg.graft graft stored
      have hq₁ := (stable_node t id c q).attach hg hq stored next graft
      have hq₂ := (stable_node t id c q).cover hgraft hq₁ left
      obtain ⟨first, left, _⟩ := left
      obtain ⟨second, right, _⟩ := right
      have h₁ {x : String} := graft.holds_iff_outside (a := x) w hq hout
      have h₂ {x : String} := left.holds_iff_outside (a := x) hgraft.wellFormed.toWired hq₁ (mt h₁.mp hout)
      have hout₂ := mt (h₂.trans h₁).mp hout
      exact (right.holds_iff_outside (left.grounded hgraft).wellFormed.toWired hq₂ hout₂).trans (h₂.trans h₁)

theorem Refreshed.forest_eq (h : Refreshed t parent g g') : g'.1 = g.1 := by
  cases h <;> rfl

/-- A node that goes down from `b` arrives below `b` or deeper. -/
theorem Inserted.arrives (h : Inserted t width id parent g g') (w : g.1.Wired) :
    ∃ place g₁, Attached t width id place g g₁ ∧ g'.1 = g₁.1 ∧ ∀ b q d, parent = some b →
      g.1.nodes.get? q = some b → g.1.Depth q d →
        ∃ c r e, place = some c ∧ g.1.nodes.get? r = some c ∧ g.1.Depth r e ∧ d ≤ e := by
  induction h with
  | @arrived parent l g g₁ g₂ siblings atLeaves attached refreshed =>
      exact ⟨parent, g₁, attached, refreshed.forest_eq,
        fun b q d hb hq hd => ⟨b, q, d, hb, hq, hd, Nat.le_refl d⟩⟩
  | descended siblings inner child inserted refreshed ih =>
      obtain ⟨place, g₁, hattached, hforest, hdeep⟩ := ih w
      refine ⟨place, g₁, hattached, refreshed.forest_eq.trans hforest, ?_⟩
      rintro b q d rfl hq hd
      obtain ⟨r, hr, hchild⟩ := siblings.mem_ids.mp child
      obtain ⟨c, r', e, hplace, hr', he, hle⟩ := hdeep _ r (d + 1) rfl hr (hd.child ⟨b, hq, hchild⟩)
      exact ⟨c, r', e, hplace, hr', he, by omega⟩

/-- The node from which the way down starts stays below the same node. -/
theorem Inserted.holds_iff (h : Inserted t width id (some b) g g') (hg : Grounded g)
    (hq : g.1.nodes.get? q = some b) : g'.1.Holds a q ↔ g.1.Holds a q := by
  have w := hg.wellFormed.toWired
  obtain ⟨d, hd⟩ := hg.wellFormed.rooted.depth hq
  obtain ⟨place, g₁, hattached, hforest, hdeep⟩ := h.arrives w
  obtain ⟨c, r, e, rfl, hr, he, hle⟩ := hdeep b q d rfl hq hd
  -- what is below the place of arrival is deeper than `b`
  have hout : ¬ g.1.Holds c q := by
    intro hchild
    have := w.depth_unique hd (he.child ⟨c, hr, hchild⟩)
    omega
  rw [hforest]
  exact hattached.holds_iff_outside hg hq hout

theorem Attached.parent_present (h : Attached t width id parent g g') (ha : parent = some a) :
    g.1.contains a = true := by
  cases h with
  | fits stored next graft => exact graft.parent_present a ha
  | split stored next graft siblings wide left right => exact graft.parent_present a ha

theorem Inserted.parent_present (h : Inserted t width id (some b) g g') (w : g.1.Wired) :
    g.1.contains b = true := by
  cases h with
  | arrived siblings atLeaves attached refreshed => exact attached.parent_present rfl
  | descended siblings inner child inserted refreshed =>
      obtain ⟨q, hq⟩ := siblings.bears child
      exact w.contains_iff.mpr (w.holds_present hq)

/-- Nodes above the start of the way down are the same afterwards. -/
theorem Inserted.above (h : Inserted t width id parent g g') (hg : Grounded g)
    (ha : ∃ b q, parent = some b ∧ g'.1.nodes.get? q = some b ∧ g'.1.Holds a q) :
    ∃ b q, parent = some b ∧ g.1.nodes.get? q = some b ∧ g.1.Holds a q := by
  obtain ⟨b, q, rfl, hq, hchild⟩ := ha
  obtain ⟨r, hr⟩ := hg.wellFormed.contains_iff.mp (h.parent_present hg.wellFormed.toWired)
  have hr' := h.keeps (stable_node t id b r) hg hr
  cases (h.grounded hg).wellFormed.position_eq hq hr'
  exact ⟨b, q, rfl, hr, (h.holds_iff hg hr).mp hchild⟩

/-! ### Insertions and runs -/

/-- After an insertion below `parent` the node above `parent` may be stale, and no other. -/
theorem Inserted.settles (h : Inserted t width id parent g g') (ht : t.current) (hg : Grounded g)
    (hs : Settled t (fun _ => False) g) :
    Settled t (fun a => ∃ b q, parent = some b ∧ g.1.nodes.get? q = some b ∧ g.1.Holds a q) g' := by
  induction h with
  | @arrived parent l g g₁ g₂ siblings atLeaves attached refreshed =>
      have hattached := attached.settles (fun _ ha => ha) ht hg (hs.mono fun _ => False.elim)
      have hrefreshed := refreshed.settles (attached.grounded hg) hattached
      rw [← refreshed.forest_eq] at hrefreshed
      exact hrefreshed.mono fun a => (Inserted.arrived siblings atLeaves attached refreshed).above hg
  | @descended parent l c g g₁ g₂ siblings inner child inserted refreshed ih =>
      -- the node above `c` is `parent` itself, which is written next
      have hbelow : Settled t (fun a => parent = some a) g₁ := by
        refine (ih hg hs).mono fun a ha => ?_
        obtain ⟨_, q, ⟨⟩, hq, hholds⟩ := ha
        obtain ⟨r, hr, hchild⟩ := siblings.mem_ids.mp child
        cases hg.wellFormed.position_eq hq hr
        cases parent with
        | none => exact ((hg.wellFormed.isRoot_iff.mp hchild).2 a hholds).elim
        | some b => rw [hg.wellFormed.single b a q hchild hholds]
      have hrefreshed := refreshed.settles (inserted.grounded hg) hbelow
      rw [← refreshed.forest_eq] at hrefreshed
      exact hrefreshed.mono fun a => (Inserted.descended siblings inner child inserted refreshed).above hg

theorem builds_settled (ht : t.current) (store : NodeStore) :
    Builds t store fun _ _ g => Settled t (fun _ => False) g where
  plant hg h _ _ _ hgraft := h.attach (by simp) hgraft hg.wellFormed.toWired
  turn _ h := h
  cover hg h _ hc := hc.settles (by simp) ht hg.wellFormed.toWired h

theorem lasting_settled (ht : t.current) (tree : String) :
    Lasting t tree fun _ => Settled t fun _ => False where
  built {store} _ := by
    refine ⟨_, builds_settled ht store, ?_, fun _ h _ => h.setSummary _⟩
    rintro a ⟨q, hq⟩
    exact (SortedSet.not_mem_empty q hq).elim
  entered {given g batch} hnd hnew _ hg h := by
    refine h.of_store hg.wellFormed.toWired fun x hx => ?_
    obtain ⟨n, hn⟩ := NodeStore.contains_iff.mp (hg.stored x hx)
    refine ((NodeStore.get?_foldl_put hnd).mpr (.inr ⟨fun hin => ?_, hn⟩)).trans hn.symm
    obtain ⟨m, hm, rfl⟩ := List.mem_map.mp hin
    cases (hg.stored m.id hx).symm.trans (hnew m hm)
  inserted _ _ _ hg h hinserted :=
    (hinserted.settles ht hg h).mono fun a ha => by
      obtain ⟨_, _, hnone, _⟩ := ha
      cases hnone

/-- Summarizers that answer, if they do, with `F` of the texts, and built leaves that are read as they are
stored. -/
def Terms.exactly (F : List String → String) : Terms where
  answers texts text := text = F texts
  current := True

/-- All along a run the text of every node that has children is the summary of the texts its children have
now, in position order. -/
theorem summaries_stay_current {F : List String → String} (h : Extended (.exactly F) tree given g)
    (ha : g.1.isLeaf a = false) : ∃ n l texts, g.2.nodes.get? a = some n ∧
      g.1.childrenOf (some a) = .ok l ∧ textsOf g.2 (l.map (·.2)) = .ok texts ∧ n.text = F texts := by
  obtain ⟨hg, _, hsettled⟩ := h.lasts (lasting_settled (t := .exactly F) trivial tree)
  obtain ⟨q, hq⟩ := not_isLeaf_iff.mp ha
  obtain ⟨n, l, texts, hn, hl, htexts, hanswer⟩ := hsettled a ⟨q, hq⟩ not_false
  refine ⟨n, l, texts, hn, childrenOf_eq_ok.mpr ⟨?_, hl⟩, htexts, hanswer⟩
  rintro _ ⟨⟩
  exact hg.wellFormed.contains_iff.mpr (hg.wellFormed.holds_present hq)

/-- The text of the summary the fourth node has joined is that of both its children. -/
theorem summaries_stay_current_lengthened : ∃ g n, lengthened = .ok g ∧
    g.2.nodes.get? (summaryId "t" 4) = some n ∧ n.text = "zw" := by
  have hreads : lengthened.toOption.map (fun g => (g.1.isLeaf (summaryId "t" 4),
      ((g.1.childrenOf (some (summaryId "t" 4))).bind fun l => textsOf g.2 (l.map (·.2))).toOption)) =
        some (false, some ["z", "w"]) := by decide +kernel
  obtain ⟨g, hrun, hread⟩ := map_toOption_eq_some.mp hreads
  obtain ⟨hinner, hzw⟩ := Prod.mk.inj hread
  have hextended : Extended (.exactly String.join) "t" (threeStored.put fourthNode) g :=
    extended_lengthened (fun _ => Ends.pure rfl) hrun
  obtain ⟨n, l, texts, hn, hchildren, htexts, htext⟩ := summaries_stay_current hextended hinner
  simp only [hchildren, Except.bind, htexts, Except.toOption, Option.some.injEq] at hzw
  rw [hzw] at htext
  exact ⟨g, n, hrun, hn, htext⟩

end CorpusIndex.Forest
