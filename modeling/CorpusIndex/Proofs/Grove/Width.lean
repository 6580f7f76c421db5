import CorpusIndex.Proofs.Grove.Layout

/-!
# How wide levels become

A new node makes one level wider by one. Where that is too much, the two summaries that cover the level take
its place, and each of them has about half of it below: no level is wider than allowed once an insertion
is done, whatever the collaborators answer (`insertNode_fits`). On the way there is one level that may be
too wide, and `NarrowBeside` speaks of all the others.

With forest and store in the state, where a failure leaves them is part of what a run shows. A batch is
inserted into copies of both, and these are written back at the end, so that a failure changes
neither (`growInPlace_run`).
-/
namespace CorpusIndex

variable {σ α τ : Type}

namespace Forest

/-- Every level but that of `parent` has at most `width` nodes. -/
def NarrowBeside (width : Nat) (parent : Option String) (f : Forest) : Prop :=
  ∀ place, place ≠ parent → ∀ l, f.childrenOf place = .ok l → l.length ≤ width

/-- The forest is well formed, its nodes are stored, and no level is too wide. -/
structure Fit (width : Nat) (g : Grove) : Prop where
  wellFormed : g.1.WellFormed
  stored : ∀ id ∈ g.1.nodeIds, g.2.contains id = true
  narrow : g.1.Narrow width

/-- No level is too wide but perhaps that of `parent`. -/
structure FitBeside (width : Nat) (parent : Option String) (g : Grove) : Prop where
  wellFormed : g.1.WellFormed
  stored : ∀ id, g.1.contains id = true → g.2.contains id = true
  narrow : g.1.NarrowBeside width parent

/-- `g'` has the nodes of `g`, in the forest and in the store. -/
structure Keeps (g g' : Grove) : Prop where
  nodes : ∀ id, g.1.contains id = true → g'.1.contains id = true
  stored : ∀ id, g.2.contains id = true → g'.2.contains id = true

variable {s : Summarizer σ} {sel : Selector σ} {t : Terms} {f : Forest} {store : NodeStore}
  {g g' g'' : Grove} {id a : String} {parent : Option String} {group : List String}
  {adopted : SortedSet Nat} {l l' : List (Nat × String)} {width p q : Nat}

theorem Keeps.refl (g : Grove) : Keeps g g := ⟨fun _ h => h, fun _ h => h⟩

theorem Keeps.trans (h : Keeps g g') (h' : Keeps g' g'') : Keeps g g'' :=
  ⟨fun x hx => h'.nodes x (h.nodes x hx), fun x hx => h'.stored x (h.stored x hx)⟩

/-! ### Counting a level -/

theorem Siblings.mem_of_isChild (hl : f.Siblings parent l) (hq : f.IsChild parent q) : q ∈ l.map (·.1) :=
  (hl.children q).mp hq

/-- The level of `parent` is wider by the new node. -/
theorem Graftable.length_graft (hg : f.Graftable id parent ∅ p) (w : f.Wired) (hn : f.Narrow width)
    (hl : (f.graft id parent ∅ p).childrenOf parent = .ok l) : l.length ≤ width + 1 := by
  obtain ⟨before, hread, hbefore⟩ := siblings_of_present w hg.parent_present
  have hle : l.length ≤ (p :: before.map (·.1)).length := by
    apply (childrenOf_eq_ok.mp hl).2.length_le
    intro q hq
    rcases (hg.isChild_graft_of_ne w hg.parent_ne).mp hq with ⟨_, rfl⟩ | ⟨hq, _⟩
    · exact List.mem_cons_self
    · exact List.mem_cons_of_mem _ (hbefore.mem_of_isChild hq)
  have hwidth := hn parent before hread
  simp only [List.length_cons, List.length_map] at hle
  omega

/-- Away from its parent, a new node that adopts few nodes makes no level too wide. -/
theorem Graftable.narrowBeside (hg : f.Graftable id parent adopted p) (w : f.Wired) (ps : List Nat)
    (hps : ∀ q ∈ adopted, q ∈ ps) (hle : ps.length ≤ width) (hn : f.NarrowBeside width parent) :
    (f.graft id parent adopted p).NarrowBeside width parent := by
  intro place hplace l hl
  obtain ⟨hpresent, hsiblings⟩ := childrenOf_eq_ok.mp hl
  by_cases hself : place = some id
  · subst hself
    refine (hsiblings.length_le fun q hq => ?_).trans hle
    exact hps q ((hg.holds_graft_self w).mp hq)
  · have hold (a : String) (ha : place = some a) : f.contains a = true := by
      rcases contains_graft.mp (hpresent a ha) with rfl | hold
      · exact (hself ha).elim
      · exact hold
    obtain ⟨before, hread, hbefore⟩ := siblings_of_present w hold
    have hcount : l.length ≤ (before.map (·.1)).length := by
      apply hsiblings.length_le
      intro q hq
      rcases (hg.isChild_graft_of_ne w hself).mp hq with ⟨heq, _⟩ | ⟨hq, _⟩
      · exact (hplace heq).elim
      · exact hbefore.mem_of_isChild hq
    rw [List.length_map] at hcount
    exact hcount.trans (hn place hplace before hread)

theorem FitBeside.fit (h : FitBeside width parent g)
    (hlevel : ∀ l, g.1.childrenOf parent = .ok l → l.length ≤ width) : Fit width g where
  wellFormed := h.wellFormed
  stored x hx := h.stored x (h.wellFormed.mem_nodeIds.mp hx)
  narrow place l hl := by
    by_cases hplace : place = parent
    · exact hlevel l (hplace ▸ hl)
    · exact h.narrow place hplace l hl

/-- A new node below `parent` makes no other level wider. -/
theorem Fit.graft (h : Fit width (f, store)) (hg : f.Graftable id parent ∅ p) (hid : store.contains id = true) :
    FitBeside width parent (f.graft id parent ∅ p, store) where
  wellFormed := hg.wellFormed_graft h.wellFormed
  stored x hx := by
    rcases contains_graft.mp hx with rfl | hx
    · exact hid
    · exact h.stored x (h.wellFormed.mem_nodeIds.mpr hx)
  narrow := hg.narrowBeside h.wellFormed.toWired [] (by simp) (Nat.zero_le _) fun place _ => h.narrow place

/-! ### Covering half a level -/

namespace Covered
variable (h : Covered t parent group p g g')
include h

/-- The summary has what it covers below it, and is itself stored. -/
theorem fitBeside (hfit : FitBeside width parent g) (hle : group.length ≤ width) :
    FitBeside width parent g' := by
  have w := hfit.wellFormed.toWired
  cases h with
  | @mk f store adopted text next graft adopts ordered answer =>
      refine ⟨graft.wellFormed_graft hfit.wellFormed, fun x hx => ?_, ?_⟩
      · rcases contains_graft.mp hx with rfl | hx
        · exact NodeStore.contains_insert.mpr (.inl (summaryNode_id ..).symm)
        · exact NodeStore.contains_insert.mpr (.inr (hfit.stored x hx))
      · refine graft.narrowBeside w (group.filterMap f.positions.get?) (fun q hq => ?_)
          ((List.length_filterMap_le ..).trans hle) hfit.narrow
        obtain ⟨c, hc, hq⟩ := (adopts q).mp hq
        exact List.mem_filterMap.mpr ⟨c, hc, (w.inverse c q).mpr hq⟩

/-- The summary is below `parent`, and what it covers is not any more. -/
theorem isChild (w : g.1.Wired) (hq : g'.1.IsChild parent q) :
    q = p ∨ (g.1.IsChild parent q ∧ ∀ c ∈ group, g.1.nodes.get? q ≠ some c) := by
  cases h with
  | mk next graft adopts ordered answer =>
      rcases (graft.isChild_graft_of_ne w graft.parent_ne).mp hq with ⟨_, rfl⟩ | ⟨hq, hout⟩
      · exact .inl rfl
      · exact .inr ⟨hq, fun c hc hnode => hout ⟨rfl, (adopts q).mpr ⟨c, hc, hnode⟩⟩⟩

theorem keeps_node {x : String} (hq : g.1.nodes.get? q = some x) : g'.1.nodes.get? q = some x := by
  cases h with
  | mk next graft adopts ordered answer => exact graft.keeps_node hq

theorem keeps : Keeps g g' := by
  cases h with
  | mk next graft adopts ordered answer =>
      exact ⟨fun x hx => contains_graft.mpr (.inr hx), fun x hx => NodeStore.contains_insert.mpr (.inr hx)⟩

end Covered

/-- Two summaries that cover a level are all that is left of it. -/
theorem Covered.fit_of_both {first last : List String} {p' : Nat} (hwidth : 2 ≤ width)
    (hfit : FitBeside width parent g) (hl : g.1.Siblings parent l) (hsplit : first ++ last = l.map (·.2))
    (hfirst : first.length ≤ width) (hlast : last.length ≤ width)
    (left : Covered t parent first p g g') (right : Covered t parent last p' g' g'') : Fit width g'' := by
  have w := hfit.wellFormed.toWired
  refine (right.fitBeside (left.fitBeside hfit hfirst) hlast).fit fun after hafter => ?_
  have hcount : after.length ≤ [p, p'].length := by
    apply (childrenOf_eq_ok.mp hafter).2.length_le
    intro q hq
    rcases right.isChild (left.wired w) hq with rfl | ⟨hq, hright⟩
    · exact .tail _ (.head _)
    rcases left.isChild w hq with rfl | ⟨hq, hleft⟩
    · exact .head _
    -- a node of the level that neither summary covers
    obtain ⟨e, he, rfl⟩ := List.mem_map.mp (hl.mem_of_isChild hq)
    have hnode := hl.nodes e he
    have hin : e.2 ∈ first ++ last := hsplit ▸ List.mem_map_of_mem he
    rcases List.mem_append.mp hin with hin | hin
    · exact (hleft e.2 hin hnode).elim
    · exact (hright e.2 hin (left.keeps_node hnode)).elim
  exact hcount.trans hwidth

/-! ### Inserting -/

/-- After an insertion below `g` every level is narrow, and `id` is among the nodes. -/
def Took (width : Nat) (id : String) (g g' : Grove) : Prop :=
  Fit width g' ∧ Keeps g g' ∧ g'.1.contains id = true

theorem within_any (s : Summarizer σ) : s.Within ({} : Terms).answers := fun _ => Ends.any _

theorem attachAndSplit_fits (s : Summarizer σ) (parent : Option String) (hwidth : 2 ≤ width)
    (h : Fit width (f, store)) (hid : store.contains id = true) :
    Ends (attachAndSplit s width id parent (f, store)) (Took width id (f, store)) fun _ => True := by
  have w := h.wellFormed.toWired
  unfold attachAndSplit
  dsimp only
  refine Ends.bind (Ends.checked _) fun r hr => ?_
  obtain ⟨f', p⟩ := r
  obtain ⟨_, hgraft, rfl⟩ := insertUnder_eq_ok hr
  refine Ends.bind (Ends.checked _) fun l hl => ?_
  have hbeside := h.graft hgraft hid
  have hkept : Keeps (f, store) (f.graft id parent ∅ p, store) :=
    ⟨fun x hx => contains_graft.mpr (.inr hx), fun x hx => hx⟩
  have hnew : (f.graft id parent ∅ p).contains id = true := contains_graft.mpr (.inl rfl)
  simp only [List.length_map]
  split
  next hfits =>
    refine Ends.pure ⟨hbeside.fit fun l' hl' => ?_, hkept, hnew⟩
    cases hl.symm.trans hl'
    exact hfits
  next hwide =>
    have hlength := hgraft.length_graft w h.narrow hl
    have hsiblings := (childrenOf_eq_ok.mp hl).2
    have hordered : (f.graft id parent ∅ p).InOrder (l.map (·.2)) := ⟨l, hsiblings.toAscending, rfl⟩
    have hw := hbeside.wellFormed.toWired
    refine Ends.bind (coverGroup_covers (t := {}) (within_any s) hw
      (hordered.sublist (List.take_sublist ..))) fun g hleft => ?_
    obtain ⟨first, hleft, _⟩ := hleft
    have hrest := hleft.inOrder (hordered.sublist (List.drop_sublist (l.length / 2) _))
    refine (coverGroup_covers (t := {}) (within_any s) (hleft.wired hw) hrest).imp (fun g' hright => ?_)
      fun _ h => h
    obtain ⟨last, hright, _⟩ := hright
    have hboth := hleft.keeps.trans hright.keeps
    refine ⟨?_, hkept.trans hboth, hboth.nodes id hnew⟩
    apply Covered.fit_of_both hwidth hbeside hsiblings (List.take_append_drop ..) _ _ hleft hright
    · rw [List.length_take, List.length_map]
      omega
    · rw [List.length_drop, List.length_map]
      omega

/-- A text written anew changes no level. -/
theorem refresh_fits {g₀ : Grove} (h : Took width id g₀ g) :
    Ends (refresh s a g) (Took width id g₀) fun _ => True := by
  refine (refresh_refreshes (t := {}) (within_any s)).imp (fun g' hg' => ?_) fun _ h => h
  obtain ⟨hfit, hkept, hin⟩ := h
  cases hg' with
  | @above f store a text n l texts siblings read answer stored =>
      have hstore (x : String) (hx : store.contains x = true) :
          (⟨store.nodes.insert a { n with text }⟩ : NodeStore).contains x = true :=
        NodeStore.contains_insert.mpr (.inr hx)
      exact ⟨⟨hfit.wellFormed, fun x hx => hstore x (hfit.stored x hx), hfit.narrow⟩,
        ⟨hkept.nodes, fun x hx => hstore x (hkept.stored x hx)⟩, hin⟩

theorem refreshAbove_fits {g₀ : Grove} (s : Summarizer σ) (parent : Option String) (h : Took width id g₀ g) :
    Ends (match parent with
      | some a => refresh s a g
      | none => pure g) (Took width id g₀) fun _ => True := by
  cases parent with
  | none => exact Ends.pure h
  | some a => exact refresh_fits h

theorem insertNode_fits (hwidth : 2 ≤ width) (h : Fit width g) (hid : g.2.contains id = true)
    (fuel : Nat) (parent : Option String) :
    Ends (insertNode s sel width id fuel parent g) (Took width id g) fun _ => True := by
  obtain ⟨f, store⟩ := g
  induction fuel generalizing parent with
  | zero => exact Ends.throw trivial
  | succ fuel ih =>
      have harrive := Ends.bind (attachAndSplit_fits s parent hwidth h hid) fun _ hg =>
        refreshAbove_fits s parent hg
      unfold insertNode
      refine Ends.bind (Ends.checked _) fun l _ => ?_
      refine Ends.ite (Ends.bind (Ends.any _) fun chosen _ => ?_) (Ends.bind (Ends.any _) fun chosen _ => ?_)
      all_goals
        cases chosen with
        | none => exact harrive
        | some c => exact Ends.bind (ih (some c)) fun _ hg => refreshAbove_fits s parent hg

theorem insertAll_fits {ids : List String} (hwidth : 2 ≤ width) (h : Fit width g)
    (hids : ∀ id ∈ ids, g.2.contains id = true) : Ends (insertAll s sel width ids g)
      (fun g' => Fit width g' ∧ Keeps g g' ∧ ∀ id ∈ ids, g'.1.contains id = true) fun _ => True := by
  induction ids generalizing g with
  | nil => exact Ends.pure ⟨h, .refl g, by simp⟩
  | cons id ids ih =>
      unfold insertAll
      refine Ends.bind (insertNode_fits hwidth h (hids id (by simp)) _ none) fun g₁ hg₁ => ?_
      obtain ⟨hfit, hkept, hin⟩ := hg₁
      refine (ih hfit fun x hx => hkept.stored x (hids x (by simp [hx]))).imp (fun g' hg' => ?_) fun _ h => h
      exact ⟨hg'.1, hkept.trans hg'.2.1, List.forall_mem_cons.mpr ⟨hg'.2.1.nodes id hin, hg'.2.2⟩⟩

theorem grow_fits {batch : List Node} (hwidth : 2 ≤ width) (h : Fit width g) :
    Ends (grow s sel width batch g)
      (fun g' => Fit width g' ∧ Keeps g g' ∧ ∀ n ∈ batch, g'.1.contains n.id = true) fun _ => True := by
  obtain ⟨f, store⟩ := g
  unfold grow
  refine Ends.bind (Ends.any _) fun _ _ => Ends.bind (Ends.checked _) fun store' hadd => ?_
  obtain ⟨hnd, _, rfl⟩ := NodeStore.add_eq_ok hadd
  have hold (x : String) (hx : store.contains x = true) : (batch.foldl NodeStore.put store).contains x = true :=
    (NodeStore.contains_foldl_put hnd).mpr (.inr hx)
  have hfit : Fit width (f, batch.foldl NodeStore.put store) :=
    ⟨h.wellFormed, fun x hx => hold x (h.stored x hx), h.narrow⟩
  refine (insertAll_fits hwidth hfit fun id hid => (NodeStore.contains_foldl_put hnd).mpr (.inl hid)).imp
    (fun g' hg' => ?_) fun _ h => h
  refine ⟨hg'.1, ⟨hg'.2.1.nodes, fun x hx => hg'.2.1.stored x (hold x hx)⟩, fun n hn => ?_⟩
  exact hg'.2.2 n.id (List.mem_map_of_mem hn)

/-! ### In place -/

/-- Working in place comes to the same, and a failure leaves forest and store. -/
theorem growInPlace_run (s : Summarizer σ) (sel : Selector σ) (width : Nat) (batch : List Node) (g : Grove)
    (st : σ) : (growInPlace s sel width batch).run (g, st) =
      match (grow s sel width batch g).run st with
      | (.ok g', st') => (.ok ⟨⟩, (g', st'))
      | (.error e, st') => (.error e, (g, st')) := by
  unfold growInPlace
  rw [get_bind_run, run_bind, apart_run]
  rcases (grow s sel width batch g).run st with ⟨r, st'⟩
  cases r <;> rfl

/-- A batch that is inserted leaves no level too wide, and the forest has all its nodes and those of the
batch, each of them stored. A batch that cannot be inserted leaves forest and store as they were. -/
theorem growth_stays_narrow (s : Summarizer σ) (sel : Selector σ) (batch : List Node) (st : σ)
    (hwidth : 2 ≤ width) (h : Fit width g) :
    match (growInPlace s sel width batch).run (g, st) with
    | (.ok _, (g', st')) => Fit width g' ∧ (∀ id ∈ g.1.nodeIds, id ∈ g'.1.nodeIds) ∧
        (∀ n ∈ batch, n.id ∈ g'.1.nodeIds) ∧ (grow s sel width batch g).run st = (.ok g', st')
    | (.error e, (g', st')) => g' = g ∧ (grow s sel width batch g).run st = (.error e, st') := by
  rw [growInPlace_run]
  rcases hrun : (grow s sel width batch g).run st with ⟨r, st'⟩
  cases r with
  | error e => exact ⟨rfl, rfl⟩
  | ok g' =>
      obtain ⟨hfit, hkept, hin⟩ := (grow_fits hwidth h).of_run hrun
      have w := h.wellFormed.toWired
      have w' := hfit.wellFormed.toWired
      refine ⟨hfit, fun id hid => ?_, fun n hn => w'.mem_nodeIds.mpr (hin n hn), rfl⟩
      exact w'.mem_nodeIds.mpr (hkept.nodes id (w.mem_nodeIds.mp hid))

/-- Four nodes and two siblings at most: the third splits the roots, and the fourth splits the level below the
second of the two summaries. -/
theorem growth_stays_narrow_fourNodes : ∃ g',
    (growInPlace joining followingLast 2 (threeNodes ++ [fourthNode])).run (({ id := "t" }, {}), ()) =
      (.ok ⟨⟩, (g', ())) ∧ Fit 2 g' ∧ "a" ∈ g'.1.nodeIds ∧ "d" ∈ g'.1.nodeIds ∧
      g'.1.roots.toList = [(3, summaryId "t" 3), (4, summaryId "t" 4)] ∧
      (g'.1.children.getD (summaryId "t" 4) ∅).elems = [6, 7] := by
  have hempty : Fit 2 (({ id := "t" }, {}) : Grove) := by
    constructor
    · exact wellFormed_empty "t" none
    · intro id hid
      cases hid
    · intro place l hl
      cases place with
      | none =>
          cases hl
          decide
      | some a => cases hl
  have hgrown : ((grow joining followingLast 2 (threeNodes ++ [fourthNode])
      ({ id := "t" }, {})).run ()).1.toOption.map
        (fun g => (g.1.roots.toList, (g.1.children.getD (summaryId "t" 4) ∅).elems)) =
      some ([(3, summaryId "t" 3), (4, summaryId "t" 4)], [6, 7]) := by decide +kernel
  have hfirst : { id := "a", text := "x", document := some "A" } ∈ threeNodes ++ [fourthNode] := by decide
  have hlast : fourthNode ∈ threeNodes ++ [fourthNode] := by decide
  generalize threeNodes ++ [fourthNode] = batch at *
  have hall := growth_stays_narrow joining followingLast batch () (by decide) hempty
  generalize (growInPlace joining followingLast 2 batch).run (({ id := "t" }, {}), ()) = out at *
  obtain ⟨r, g', st'⟩ := out
  cases r with
  | error e =>
      rw [hall.2] at hgrown
      cases hgrown
  | ok u =>
      obtain ⟨hfit, _, hin, hgrow⟩ := hall
      rw [hgrow] at hgrown
      obtain ⟨hroots, hbelow⟩ := Prod.mk.inj (Option.some.inj hgrown)
      exact ⟨g', rfl, hfit, hin _ hfirst, hin _ hlast, hroots, hbelow⟩

end Forest
end CorpusIndex
