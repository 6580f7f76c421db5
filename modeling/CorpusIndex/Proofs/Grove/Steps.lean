import CorpusIndex.Proofs.Action
import CorpusIndex.Proofs.Grove.Tended

/-!
# What an insertion does

Whatever the collaborators answer, an insertion that succeeds is made of three kinds of steps: the node is
attached, a summary takes the place of some siblings, and the text of a node with children is written anew.
One relation for each function says which steps it takes and where, and facts about forests and stores are
carried along these relations.
-/
namespace CorpusIndex

variable {σ : Type}

/-- The summarizer answers as `A` says, if it answers at all. -/
def Summarizer.Within (s : Summarizer σ) (A : List String → String → Prop) : Prop :=
  ∀ texts, Ends (s.summarize texts) (A texts) fun _ => True

/-- Asked for one of some candidates, the selector picks one, if it answers at all. -/
def Selector.Decisive (sel : Selector σ) : Prop :=
  ∀ query candidates, candidates ≠ [] → Ends (sel.select query candidates 1)
    (fun picks => ∃ p ∈ picks.head?, p.1 < candidates.length) fun _ => True

namespace Forest

/-- What is asked of a run: how summarizers answer, whether built leaves are read as they are stored, and
whether selectors always pick a candidate. -/
structure Terms where
  answers : List String → String → Prop := fun _ _ => True
  current : Prop := False
  decisive : Prop := False

variable {s : Summarizer σ} {sel : Selector σ} {t : Terms} {f : Forest} {store : NodeStore}
  {g g' : Grove} {id a x : String} {parent : Option String} {group children : List String}
  {width p : Nat}

/-! ### The steps -/

/-- A new summary at `p` takes the place of a group of siblings. -/
inductive Covered (t : Terms) (parent : Option String) (group : List String) (p : Nat) : Grove → Grove → Prop
  | mk {f : Forest} {store : NodeStore} {adopted : SortedSet Nat} {text : String}
      (next : f.nextPosition = .ok p) (graft : f.Graftable (summaryId f.id p) parent adopted p)
      (adopts : ∀ q, q ∈ adopted ↔ ∃ c ∈ group, f.nodes.get? q = some c) (ordered : f.InOrder group)
      (answer : t.current → ∃ texts, textsOf store group = .ok texts ∧ t.answers texts text) :
      Covered t parent group p (f, store) (f.graft (summaryId f.id p) parent adopted p,
        store.put (summaryNode (summaryId f.id p) text group))

/-- The summary is new to the store, too. -/
def CoveredAnew (t : Terms) (parent : Option String) (group : List String) (g g' : Grove) : Prop :=
  ∃ p, Covered t parent group p g g' ∧ g.2.contains (summaryId g.1.id p) = false

/-- A stored node enters a level, which is split under two summaries if it is too wide then. -/
inductive Attached (t : Terms) (width : Nat) (id : String) (parent : Option String) : Grove → Grove → Prop
  | fits {f : Forest} {store : NodeStore} {p : Nat} (stored : store.contains id = true)
      (next : f.nextPosition = .ok p) (graft : f.Graftable id parent ∅ p) :
      Attached t width id parent (f, store) (f.graft id parent ∅ p, store)
  | split {f : Forest} {store : NodeStore} {p : Nat} {l : List (Nat × String)} {g g' : Grove}
      (stored : store.contains id = true) (next : f.nextPosition = .ok p)
      (graft : f.Graftable id parent ∅ p) (siblings : (f.graft id parent ∅ p).Siblings parent l)
      (wide : width < l.length)
      (left : CoveredAnew t parent ((l.map (·.2)).take (l.length / 2)) (f.graft id parent ∅ p, store) g)
      (right : CoveredAnew t parent ((l.map (·.2)).drop (l.length / 2)) g g') :
      Attached t width id parent (f, store) g'

/-- Above a level the summary is written anew; above the roots there is none. -/
inductive Refreshed (t : Terms) : Option String → Grove → Grove → Prop
  | roots {g : Grove} : Refreshed t none g g
  | above {f : Forest} {store : NodeStore} {a text : String} {n : Node} {l : List (Nat × String)}
      {texts : List String} (siblings : f.Siblings (some a) l)
      (read : textsOf store (l.map (·.2)) = .ok texts) (answer : t.answers texts text)
      (stored : store.nodes.get? a = some n) :
      Refreshed t (some a) (f, store) (f, ⟨store.nodes.insert a { n with text }⟩)

/-- A node goes down from `parent` to the level where it is attached, and the summaries on the way are
written anew, the lowest first. It joins a level that starts with a node without children, or a level where
nothing was picked. -/
inductive Inserted (t : Terms) (width : Nat) (id : String) : Option String → Grove → Grove → Prop
  | arrived {parent : Option String} {l : List (Nat × String)} {g g₁ g₂ : Grove}
      (siblings : g.1.Siblings parent l)
      (atLeaves : t.decisive → ∀ e ∈ l.head?, g.1.isLeaf e.2 = true)
      (attached : Attached t width id parent g g₁) (refreshed : Refreshed t parent g₁ g₂) :
      Inserted t width id parent g g₂
  | descended {parent : Option String} {l : List (Nat × String)} {c : String} {g g₁ g₂ : Grove}
      (siblings : g.1.Siblings parent l) (inner : ∃ e ∈ l.head?, g.1.isLeaf e.2 = false)
      (child : c ∈ l.map (·.2)) (inserted : Inserted t width id (some c) g g₁)
      (refreshed : Refreshed t parent g₁ g₂) : Inserted t width id parent g g₂

/-! ### Forests and stores along the steps -/

theorem Covered.wired (h : Covered t parent group p g g') (w : g.1.Wired) : g'.1.Wired := by
  cases h with
  | mk next graft adopts ordered answer => exact graft.wired_graft w

theorem Covered.inOrder (h : Covered t parent group p g g') (hids : g.1.InOrder children) :
    g'.1.InOrder children := by
  cases h with
  | mk next graft adopts ordered answer => exact hids.graft graft

/-- A new summary changes nothing of the nodes of the forest. -/
theorem Covered.keeps_nodes (h : Covered t parent group p g g') (hx : g.1.contains x = true) :
    g'.1.contains x = true ∧ g'.2.nodes.get? x = g.2.nodes.get? x := by
  cases h with
  | @mk f store adopted text next graft adopts ordered answer =>
      have hne : x ≠ summaryId f.id p := by
        rintro rfl
        cases hx.symm.trans graft.fresh
      refine ⟨contains_graft.mpr (.inr hx), ?_⟩
      change (store.nodes.insert (summaryNode (summaryId f.id p) text group).id _).get? x = _
      rw [summaryNode_id]
      exact SortedMap.get?_insert_of_ne _ _ hne

/-! ### What the functions do -/

theorem coverGroup_covers (hs : s.Within t.answers) (w : g.1.Wired) (hgroup : g.1.InOrder group) :
    Ends (coverGroup s parent g group) (CoveredAnew t parent group g) fun _ => True := by
  obtain ⟨f, store⟩ := g
  unfold coverGroup
  dsimp only at w hgroup ⊢
  refine Ends.bind (Ends.checked _) fun texts htexts => Ends.bind (hs texts) fun text hanswer => ?_
  refine Ends.bind (Ends.checked _) fun q hq => Ends.bind (Ends.checked _) fun r hr => ?_
  obtain ⟨f', p⟩ := r
  obtain ⟨below, hp, hgraft, rfl, hbelow⟩ := insertBetween_eq_ok w hr
  cases hq.symm.trans hp
  refine Ends.bind (Ends.checked _) fun store' hadd => Ends.pure ?_
  obtain ⟨_, hfresh, rfl⟩ := NodeStore.add_eq_ok hadd
  have hnew : store.contains (summaryId f.id q) = false := by
    have hnode := hfresh rfl (summaryNode (summaryId f.id q) text group) (by simp)
    rwa [summaryNode_id] at hnode
  exact ⟨q, .mk hp hgraft hbelow hgroup fun _ => ⟨texts, htexts, hanswer⟩, hnew⟩

theorem attachAndSplit_attaches (hs : s.Within t.answers) (w : f.Wired) (hid : store.contains id = true) :
    Ends (attachAndSplit s width id parent (f, store)) (Attached t width id parent (f, store))
      fun _ => True := by
  unfold attachAndSplit
  dsimp only
  refine Ends.bind (Ends.checked _) fun r hr => ?_
  obtain ⟨f', p⟩ := r
  obtain ⟨hp, hgraft, rfl⟩ := insertUnder_eq_ok hr
  refine Ends.bind (Ends.checked _) fun l hl => ?_
  have hsiblings := (childrenOf_eq_ok.mp hl).2
  simp only [List.length_map]
  split
  next => exact Ends.pure (.fits hid hp hgraft)
  next hwide =>
    have hw := hgraft.wired_graft w
    have hordered : (f.graft id parent ∅ p).InOrder (l.map (·.2)) := ⟨l, hsiblings.toAscending, rfl⟩
    refine Ends.bind (coverGroup_covers hs hw (hordered.sublist (List.take_sublist ..))) fun g hleft => ?_
    have hcover := hleft
    obtain ⟨first, hcover, _⟩ := hcover
    have hrest := hcover.inOrder (hordered.sublist (List.drop_sublist (l.length / 2) _))
    refine (coverGroup_covers hs (hcover.wired hw) hrest).imp (fun g' hright => ?_) fun _ h => h
    exact .split hid hp hgraft hsiblings (by omega) hleft hright

theorem refresh_refreshes (hs : s.Within t.answers) :
    Ends (refresh s a g) (Refreshed t (some a) g) fun _ => True := by
  obtain ⟨f, store⟩ := g
  unfold refresh
  refine Ends.bind (Ends.checked _) fun l hl => Ends.bind (Ends.checked _) fun texts htexts => ?_
  refine Ends.bind (hs texts) fun text hanswer => Ends.bind (Ends.checked _) fun store' hset => Ends.pure ?_
  obtain ⟨n, hn, hset⟩ := bind_eq_ok.mp hset
  cases pure_eq_ok.mp hset
  exact .above (childrenOf_eq_ok.mp hl).2 htexts hanswer (NodeStore.node_eq_ok.mp hn)

/-- What is picked is one of the children, and a decisive selector picks one. -/
theorem route_picks (hsel : t.decisive → sel.Decisive) (k : store.Keyed) :
    Ends (route sel store id children) (fun chosen => (∀ c, chosen = some c → c ∈ children) ∧
      (t.decisive → children ≠ [] → chosen ≠ none)) fun _ => True := by
  unfold route
  refine Ends.bind (Ends.checked _) fun candidates hcandidates => ?_
  have hids : candidates.map (·.id) = children :=
    map_of_mapM_eq_ok (fun c n hn => k c n (NodeStore.resolve_eq_ok.mp hn)) hcandidates
  have hselect (query : Query) : Ends (sel.select query candidates 1) (fun picks =>
      t.decisive → candidates ≠ [] → ∃ p ∈ picks.head?, p.1 < candidates.length) fun _ => True := by
    by_cases hd : t.decisive ∧ candidates ≠ []
    · exact (hsel hd.1 query candidates hd.2).imp (fun _ hpicks _ _ => hpicks) fun _ h => h
    · exact (Ends.any _).imp (fun _ _ ht hne => absurd ⟨ht, hne⟩ hd) fun _ h => h
  refine Ends.bind (Ends.checked _) fun n _ => Ends.bind (hselect _) fun picks hpicks => Ends.pure ⟨?_, ?_⟩
  · intro c hc
    obtain ⟨pick, _, hpick⟩ := Option.bind_eq_some_iff.mp hc
    obtain ⟨m, hm, rfl⟩ := Option.map_eq_some_iff.mp hpick
    rw [← hids]
    exact List.mem_map_of_mem (List.mem_of_getElem? hm)
  · intro hd hne hnone
    have hcandidates : candidates ≠ [] := by
      rintro rfl
      exact hne hids.symm
    obtain ⟨pick, hpick, hlt⟩ := hpicks hd hcandidates
    rw [Option.mem_def.mp hpick, Option.bind_some, List.getElem?_eq_getElem hlt] at hnone
    cases hnone

section Insert
variable (hs : s.Within t.answers)
include hs

theorem refreshAbove_refreshes (g : Grove) : Ends (match parent with
      | some a => refresh s a g
      | none => pure g) (Refreshed t parent g) fun _ => True := by
  cases parent with
  | none => exact Ends.pure .roots
  | some a => exact refresh_refreshes hs

theorem insertNode_inserts (hsel : t.decisive → sel.Decisive) (w : f.Wired) (k : store.Keyed)
    (hid : store.contains id = true) (fuel : Nat) (parent : Option String) :
    Ends (insertNode s sel width id fuel parent (f, store)) (Inserted t width id parent (f, store))
      fun _ => True := by
  induction fuel generalizing parent with
  | zero => exact Ends.throw trivial
  | succ fuel ih =>
      unfold insertNode
      refine Ends.bind (Ends.checked _) fun l hl => ?_
      have hsiblings := (childrenOf_eq_ok.mp hl).2
      have harrive (hleaves : t.decisive → ∀ e ∈ l.head?, f.isLeaf e.2 = true) :
          Ends (do
            let g ← attachAndSplit s width id parent (f, store)
            match parent with
              | some a => refresh s a g
              | none => pure g) (Inserted t width id parent (f, store)) fun _ => True :=
        Ends.bind (attachAndSplit_attaches hs w hid) fun g hg =>
          (refreshAbove_refreshes hs g).imp (fun g' hg' => .arrived hsiblings hleaves hg hg') fun _ h => h
      cases l with
      | nil => exact harrive fun _ e he => by cases he
      | cons e l =>
      simp only [List.map_cons]
      split
      next hleaf => exact harrive fun _ d hd => by cases hd; exact hleaf
      next hinner =>
        refine Ends.bind (route_picks hsel k) fun chosen hchosen => ?_
        cases chosen with
        | none =>
            exact harrive fun hd => absurd rfl (hchosen.2 hd (by simp))
        | some c =>
            refine Ends.bind (ih (some c)) fun g hg => (refreshAbove_refreshes hs g).imp (fun g' hg' => ?_)
              fun _ h => h
            exact .descended hsiblings ⟨e, rfl, by simpa using hinner⟩ (hchosen.1 c rfl) hg hg'

end Insert

/-! ### What every step keeps -/

/-- The forest is well formed, nodes are stored under their ids, and those of the forest are stored. -/
structure Grounded (g : Grove) : Prop where
  wellFormed : g.1.WellFormed
  keyed : g.2.Keyed
  stored : ∀ id, g.1.contains id = true → g.2.contains id = true

namespace Grounded

theorem put (h : Grounded (f, store)) (n : Node) : Grounded (f, store.put n) where
  wellFormed := h.wellFormed
  keyed := h.keyed.put
  stored x hx := NodeStore.contains_insert.mpr (.inr (h.stored x hx))

theorem putAll (h : Grounded (f, store)) (batch : List Node) : Grounded (f, batch.foldl NodeStore.put store) := by
  induction batch generalizing store with
  | nil => exact h
  | cons n batch ih => exact ih (h.put n)

theorem graft {adopted : SortedSet Nat} (h : Grounded (f, store)) (hgraft : f.Graftable id parent adopted p)
    (hid : store.contains id = true) : Grounded (f.graft id parent adopted p, store) where
  wellFormed := hgraft.wellFormed_graft h.wellFormed
  keyed := h.keyed
  stored x hx := by
    rcases contains_graft.mp hx with rfl | hx
    · exact hid
    · exact h.stored x hx

theorem setText {n : Node} (h : Grounded (f, store)) (hn : store.nodes.get? a = some n) (text : String) :
    Grounded (f, ⟨store.nodes.insert a { n with text }⟩) where
  wellFormed := h.wellFormed
  keyed y m hm := by
    rcases SortedMap.get?_insert_eq_some.mp hm with ⟨rfl, rfl⟩ | ⟨_, hm⟩
    · exact h.keyed y n hn
    · exact h.keyed y m hm
  stored x hx := NodeStore.contains_insert.mpr (.inr (h.stored x hx))

end Grounded

theorem Covered.grounded (h : Covered t parent group p g g') (hg : Grounded g) : Grounded g' := by
  cases h with
  | @mk f store adopted text next graft adopts ordered answer =>
      apply (hg.put _).graft graft
      exact NodeStore.contains_insert.mpr (.inl (summaryNode_id ..).symm)

/-- A node with children keeps some: what a new node takes from it is below the new node, and that is
below it. -/
theorem Graftable.bears {adopted : SortedSet Nat} (h : f.Graftable id parent adopted p) (w : f.Wired)
    (ha : ∃ q, f.Holds a q) : ∃ q, (f.graft id parent adopted p).Holds a q := by
  by_cases hpar : parent = some a
  · exact ⟨p, (h.holds_graft w).mpr (.inr (.inl ⟨hpar, rfl⟩))⟩
  · obtain ⟨q, hq⟩ := ha
    exact ⟨q, (h.holds_graft w).mpr (.inr (.inr ⟨hq, fun hin => hpar hin.1⟩))⟩

/-- What has no children after a graft had none before. -/
theorem Graftable.isLeaf_of_graft {adopted : SortedSet Nat} (h : f.Graftable id parent adopted p) (w : f.Wired)
    (hx : (f.graft id parent adopted p).isLeaf x = true) : f.isLeaf x = true := by
  rw [← Bool.not_eq_false]
  intro hinner
  obtain ⟨q, hq⟩ := h.bears w (not_isLeaf_iff.mp hinner)
  exact isLeaf_iff.mp hx q hq

/-- Each kind of step keeps `I`. -/
structure Stable (t : Terms) (id : String) (I : Grove → Prop) : Prop where
  attach : ∀ {f : Forest} {store : NodeStore} {parent : Option String} {p : Nat}, Grounded (f, store) →
    I (f, store) → store.contains id = true → f.nextPosition = .ok p → f.Graftable id parent ∅ p →
      I (f.graft id parent ∅ p, store)
  cover : ∀ {g g' : Grove} {parent : Option String} {group : List String}, Grounded g → I g →
    CoveredAnew t parent group g g' → I g'
  rewrite : ∀ {f : Forest} {store : NodeStore} {a : String} {n : Node} (text : String),
    Grounded (f, store) → I (f, store) → (∃ q, f.Holds a q) → store.nodes.get? a = some n →
      I (f, ⟨store.nodes.insert a { n with text }⟩)

variable {I : Grove → Prop}

/-- Nodes that have children go on having some. -/
theorem stable_bears (t : Terms) (id a : String) : Stable t id fun g => ∃ q, g.1.Holds a q where
  attach hg ha _ _ hgraft := hgraft.bears hg.wellFormed.toWired ha
  cover hg ha h := by
    obtain ⟨p, hcover, _⟩ := h
    cases hcover with
    | mk next graft adopts ordered answer => exact graft.bears hg.wellFormed.toWired ha
  rewrite _ _ ha _ _ := ha

/-- Nothing is taken out of the store. -/
theorem stable_contains (t : Terms) (id x : String) : Stable t id fun g => g.2.contains x = true where
  attach _ hx _ _ _ := hx
  cover _ hx h := by
    obtain ⟨p, hcover, _⟩ := h
    cases hcover with
    | mk next graft adopts ordered answer => exact NodeStore.contains_insert.mpr (.inr hx)
  rewrite _ _ hx _ _ := NodeStore.contains_insert.mpr (.inr hx)

theorem Attached.grounded (h : Attached t width id parent g g') (hg : Grounded g) : Grounded g' := by
  cases h with
  | fits stored next graft => exact hg.graft graft stored
  | split stored next graft siblings wide left right =>
      obtain ⟨first, hleft, _⟩ := left
      obtain ⟨second, hright, _⟩ := right
      exact hright.grounded (hleft.grounded (hg.graft graft stored))

theorem Attached.keeps (h : Attached t width id parent g g') (hI : Stable t id I) (hg : Grounded g)
    (hi : I g) : I g' := by
  cases h with
  | fits stored next graft => exact hI.attach hg hi stored next graft
  | split stored next graft siblings wide left right =>
      have hgraft := hg.graft graft stored
      have hleft := hI.cover hgraft (hI.attach hg hi stored next graft) left
      obtain ⟨first, hfirst, _⟩ := left
      exact hI.cover (hfirst.grounded hgraft) hleft right

theorem Attached.bears (h : Attached t width id (some a) g g') (hg : Grounded g) : ∃ q, g'.1.Holds a q := by
  have hnew {f : Forest} {store : NodeStore} {p : Nat} (hg : Grounded (f, store))
      (hgraft : f.Graftable id (some a) ∅ p) : ∃ q, (f.graft id (some a) ∅ p).Holds a q :=
    ⟨p, (hgraft.holds_graft hg.wellFormed.toWired).mpr (.inr (.inl ⟨rfl, rfl⟩))⟩
  cases h with
  | fits stored next graft => exact hnew hg graft
  | split stored next graft siblings wide left right =>
      have hgraft := hg.graft graft stored
      have hleft := (stable_bears t id a).cover hgraft (hnew hg graft) left
      obtain ⟨first, hfirst, _⟩ := left
      exact (stable_bears t id a).cover (hfirst.grounded hgraft) hleft right

theorem Refreshed.grounded (h : Refreshed t parent g g') (hg : Grounded g) : Grounded g' := by
  cases h with
  | roots => exact hg
  | above siblings read answer stored => exact hg.setText stored _

theorem Refreshed.keeps (h : Refreshed t parent g g') (hI : Stable t id I) (hg : Grounded g) (hi : I g)
    (hbears : ∀ a, parent = some a → ∃ q, g.1.Holds a q) : I g' := by
  cases h with
  | roots => exact hi
  | above siblings read answer stored => exact hI.rewrite _ hg hi (hbears _ rfl) stored

theorem Inserted.grounded (h : Inserted t width id parent g g') (hg : Grounded g) : Grounded g' := by
  induction h with
  | arrived siblings atLeaves attached refreshed => exact refreshed.grounded (attached.grounded hg)
  | descended siblings inner child inserted refreshed ih => exact refreshed.grounded (ih hg)

/-- What the children of a level say about its parent. -/
theorem Siblings.bears {l : List (Nat × String)} {c : String} (h : f.Siblings (some a) l)
    (hc : c ∈ l.map (·.2)) : ∃ q, f.Holds a q := by
  obtain ⟨q, _, hq⟩ := h.mem_ids.mp hc
  exact ⟨q, hq⟩

/-- What each kind of step keeps is kept by an insertion. -/
theorem Inserted.keeps (h : Inserted t width id parent g g') (hI : Stable t id I) (hg : Grounded g)
    (hi : I g) : I g' := by
  induction h generalizing I with
  | arrived siblings atLeaves attached refreshed =>
      refine refreshed.keeps hI (attached.grounded hg) (attached.keeps hI hg hi) ?_
      rintro a rfl
      exact attached.bears hg
  | descended siblings inner child inserted refreshed ih =>
      refine refreshed.keeps hI (inserted.grounded hg) (ih hI hg hi) ?_
      rintro a rfl
      exact ih (stable_bears t id a) hg (siblings.bears child)

/-! ### Batches -/

/-- Nodes inserted one after another, each from the roots down. -/
inductive Filled (t : Terms) (width : Nat) : List String → Grove → Grove → Prop
  | nil {g : Grove} : Filled t width [] g g
  | cons {id : String} {ids : List String} {g g₁ g₂ : Grove} (inserted : Inserted t width id none g g₁)
      (filled : Filled t width ids g₁ g₂) : Filled t width (id :: ids) g g₂

/-- What every insertion keeps is kept by a batch. -/
theorem Filled.keeps {ids : List String} (h : Filled t width ids g g')
    (hstep : ∀ id ∈ ids, ∀ g g', Grounded g → I g → Inserted t width id none g g' → I g')
    (hg : Grounded g) (hi : I g) : Grounded g' ∧ I g' := by
  induction h with
  | nil => exact ⟨hg, hi⟩
  | cons inserted _ ih =>
      apply ih
      · exact fun id hid => hstep id (by simp [hid])
      · exact inserted.grounded hg
      · exact hstep _ (by simp) _ _ hg hi inserted

section Batch
variable (hs : s.Within t.answers) (hsel : t.decisive → sel.Decisive)
include hs hsel

theorem insertAll_fills {ids : List String} (hg : Grounded g) (hids : ∀ id ∈ ids, g.2.contains id = true) :
    Ends (insertAll s sel width ids g) (Filled t width ids g) fun _ => True := by
  induction ids generalizing g with
  | nil => exact Ends.pure .nil
  | cons id ids ih =>
      obtain ⟨f, store⟩ := g
      have hinsert : Ends (insertNode s sel width id f.depthBound none (f, store))
          (Inserted t width id none (f, store)) fun _ => True :=
        insertNode_inserts hs hsel hg.wellFormed.toWired hg.keyed (hids id (by simp)) f.depthBound none
      unfold insertAll
      refine Ends.bind hinsert fun g hfirst => (ih (hfirst.grounded hg) fun x hx => ?_).imp
        (fun g' hrest => .cons hfirst hrest) fun _ h => h
      exact hfirst.keeps (stable_contains t id x) hg (hids x (by simp [hx]))

/-- A batch that is inserted was new to the store and is stored first. -/
theorem grow_fills {batch : List Node} (hg : Grounded g) : Ends (grow s sel width batch g) (fun g' =>
    2 ≤ width ∧ (batch.map (·.id)).Nodup ∧ (∀ n ∈ batch, g.2.contains n.id = false) ∧
      Filled t width (batch.map (·.id)) (g.1, batch.foldl NodeStore.put g.2) g') fun _ => True := by
  obtain ⟨f, store⟩ := g
  unfold grow
  refine Ends.bind (Ends.checked _) fun _ hwidth => Ends.bind (Ends.checked _) fun store' hadd => ?_
  obtain ⟨hnd, hnew, rfl⟩ := NodeStore.add_eq_ok hadd
  have hwide : 2 ≤ width := by
    unfold checkWidth at hwidth
    split at hwidth
    next => cases hwidth
    next => omega
  refine (insertAll_fills hs hsel (hg.putAll batch) fun id hid => ?_).imp
    (fun g' hfilled => ⟨hwide, hnd, hnew rfl, hfilled⟩) fun _ h => h
  exact (NodeStore.contains_foldl_put hnd).mpr (.inl hid)

end Batch

end Forest
end CorpusIndex
