import CorpusIndex.Proofs.Answers.Following
import CorpusIndex.Proofs.Forest.Edits
import CorpusIndex.Proofs.Forest.Lineage
import Mathlib.Data.List.Pairwise

/-!
# Where a descent ends

A descent ends at different nodes, none of them above another, and follows no more children of a node than
it may. This holds of every course, since the courses from different nodes of a level stay apart. A limit
that no node lies below changes nothing.
-/
namespace CorpusIndex.Forest
open Relation

variable {σ : Type} {f : Forest} {store : NodeStore} {s : Selector σ} {r : Reach} {scored : Bool}
  {E : Failure → Prop} {parent place : Option String} {c : String} {chosen found met ids : List String}
  {l : List (Nat × String)} {depth fuel most limit : Nat}

/-- Different nodes, none above another. Each is a leaf or stands at the limit, none lies below the limit,
and no more children of one node, or roots, are among them than are followed. -/
structure Spread (f : Forest) (r : Reach) (ids : List String) : Prop where
  once : ids.Nodup
  apart : ∀ a ∈ ids, ∀ b ∈ ids, ∀ p q, f.nodes.get? p = some a → f.nodes.get? q = some b →
    ¬ TransGen f.Edge p q
  ended : ∀ a ∈ ids, ∃ p d, f.nodes.get? p = some a ∧ f.Depth p d ∧
    (f.isLeaf a = true ∨ r.depthLimit = some (d + 1)) ∧ ∀ limit, r.depthLimit = some limit → d + 1 ≤ limit
  few : ∀ parent, (ids.filter (fun a => f.parent? a == parent)).length ≤ r.branchFactor

theorem spread_nil (f : Forest) (r : Reach) : f.Spread r [] := by constructor <;> simp

/-! ### Picked siblings -/

/-- Different nodes with one parent, or different roots, at their level. -/
structure Row (f : Forest) (parent : Option String) (depth : Nat) (ids : List String) : Prop where
  once : ids.Nodup
  stands : ∀ c ∈ ids, f.Stands depth c
  parent : ∀ c ∈ ids, f.parent? c = parent

theorem Row.tail (h : f.Row parent depth (c :: ids)) : f.Row parent depth ids where
  once := h.once.of_cons
  stands x hx := h.stands x (List.mem_cons_of_mem c hx)
  parent x hx := h.parent x (List.mem_cons_of_mem c hx)

theorem Row.ne_head (h : f.Row parent depth (c :: ids)) {x : String} (hx : x ∈ ids) : c ≠ x := by
  rintro rfl
  exact (List.nodup_cons.mp h.once).1 hx

section Courses
variable (w : f.WellFormed)
include w

theorem row_of_picked (hlevel : f.AtLevel parent depth) (hl : f.childrenOf parent = .ok l)
    (picked : Picked most scored (l.map (·.2)) ids) : f.Row parent depth ids where
  once := picked.once
  stands x hx := by
    obtain ⟨l', hl', hdepth⟩ := childrenOf_of_walkable (checked_of_validate w.validate) w.walkable hlevel
    cases hl.symm.trans hl'
    obtain ⟨e, he, rfl⟩ := List.mem_map.mp (picked.subset hx)
    exact ⟨e.1, hdepth e he⟩
  parent x hx := parent?_of_childrenOf w hl (picked.subset hx)

theorem Row.below (h : f.Row parent depth (c :: chosen)) (hl : f.childrenOf (some c) = .ok l)
    (picked : Picked most scored (l.map (·.2)) ids) : f.Row (some c) (depth + 1) ids := by
  obtain ⟨p, hp, hd⟩ := h.stands c List.mem_cons_self
  exact row_of_picked w ⟨p, depth, hp, hd, rfl⟩ hl picked

/-- Different nodes of a row head nodes of which none heads another. -/
theorem Row.not_heads {c' x y : String} (h : f.Row parent depth (c :: chosen)) (hc' : c' ∈ chosen)
    (hx : f.Heads c x) (hy : f.Heads c' y) : ¬ f.Heads x y ∧ ¬ f.Heads y x := by
  have hne := h.ne_head hc'
  have hc := h.stands c List.mem_cons_self
  have hc' := h.tail.stands c' hc'
  exact ⟨not_heads_of_ne w hne hc hc' hx hy, not_heads_of_ne w hne.symm hc' hc hy hx⟩

/-- What a node of a row heads is that node, or its parent is headed by that node too. -/
theorem Row.parent_heads {d x : String} (h : f.Row parent depth chosen) (hd : d ∈ chosen)
    (hheads : f.Heads d x) (hx : f.parent? x ≠ parent) : ∃ a, f.parent? x = some a ∧ f.Heads d a := by
  refine hheads.parent_heads w ?_
  rintro rfl
  exact hx (h.parent x hd)

namespace Followed

/-- A course ends at picked nodes, or below them. -/
theorem found_headed (h : f.Followed r scored depth chosen found met) (row : f.Row parent depth chosen) :
    ∀ x ∈ found, ∃ c ∈ chosen, f.Heads c x := by
  induction h generalizing parent with
  | nil => simp
  | @stop depth c _ _ _ stops on ih =>
      intro x hx
      rcases List.mem_cons.mp hx with rfl | hx
      · exact ⟨x, List.mem_cons_self, (row.stands x List.mem_cons_self).heads_self⟩
      · exact (ih row.tail x hx).imp fun d hd => ⟨List.mem_cons_of_mem c hd.1, hd.2⟩
  | @down depth c l _ _ _ below found' _ goes children picked down on ihdown ihon =>
      intro x hx
      rcases List.mem_append.mp hx with hx | hx
      · obtain ⟨d, hd, hheads⟩ := ihdown (row.below w children picked) x hx
        exact ⟨c, List.mem_cons_self, (heads_of_childrenOf w children (picked.subset hd)).trans w hheads⟩
      · exact (ihon row.tail x hx).imp fun d hd => ⟨List.mem_cons_of_mem c hd.1, hd.2⟩

/-- What a course ends at below a node is below it. -/
theorem heads_of_down {below found' met' : List String} (row : f.Row parent depth (c :: chosen))
    (children : f.childrenOf (some c) = .ok l) (picked : Picked r.branchFactor scored (l.map (·.2)) below)
    (down : f.Followed r scored (depth + 1) below found' met') : ∀ x ∈ found', f.Heads c x := by
  intro x hx
  obtain ⟨d, hd, hheads⟩ := down.found_headed w (row.below w children picked) x hx
  exact (heads_of_childrenOf w children (picked.subset hd)).trans w hheads

/-- A course ends at leaves and at the limit. -/
theorem ended (h : f.Followed r scored depth chosen found met) (row : f.Row parent depth chosen)
    (hlimit : ∀ limit, r.depthLimit = some limit → depth + 1 ≤ limit) :
    ∀ x ∈ found, ∃ d, f.Stands d x ∧ (f.isLeaf x = true ∨ r.depthLimit = some (d + 1)) ∧
      ∀ limit, r.depthLimit = some limit → d + 1 ≤ limit := by
  induction h generalizing parent with
  | nil => simp
  | @stop depth c _ _ _ stops on ih =>
      intro x hx
      rcases List.mem_cons.mp hx with rfl | hx
      · refine ⟨depth, row.stands x List.mem_cons_self, ?_, hlimit⟩
        rcases (Bool.or_eq_true ..).mp stops with hstop | hleaf
        · obtain ⟨limit, hr, hle⟩ := (Option.any_eq_true ..).mp hstop
          have hge := hlimit limit hr
          have hle := of_decide_eq_true hle
          exact .inr (hr.trans (congrArg some (by omega)))
        · exact .inl hleaf
      · exact ih row.tail hlimit x hx
  | @down depth c l _ _ _ below _ _ goes children picked down on ihdown ihon =>
      intro x hx
      rcases List.mem_append.mp hx with hx | hx
      · refine ihdown (row.below w children picked) (fun limit hr => ?_) x hx
        have hgo : r.stopsAt depth = false := (Bool.or_eq_false_iff.mp goes).1
        rw [Reach.stopsAt, hr, Option.any_some, decide_eq_false_iff_not] at hgo
        omega
      · exact ihon row.tail hlimit x hx

/-- No node that a course ends at heads another one. -/
theorem apart (h : f.Followed r scored depth chosen found met) (row : f.Row parent depth chosen) :
    found.Pairwise fun x y => ¬ f.Heads x y ∧ ¬ f.Heads y x := by
  induction h generalizing parent with
  | nil => exact .nil
  | @stop depth c _ _ _ stops on ih =>
      refine List.pairwise_cons.mpr ⟨fun y hy => ?_, ih row.tail⟩
      obtain ⟨c', hc', hheads⟩ := on.found_headed w row.tail y hy
      exact row.not_heads w hc' (row.stands c List.mem_cons_self).heads_self hheads
  | @down depth c l _ _ _ below _ _ goes children picked down on ihdown ihon =>
      refine List.pairwise_append.mpr ⟨ihdown (row.below w children picked), ihon row.tail, ?_⟩
      intro x hx y hy
      obtain ⟨c', hc', hheads⟩ := on.found_headed w row.tail y hy
      exact row.not_heads w hc' (heads_of_down w row children picked down x hx) hheads

/-- Of what has the parent of the row a course ends only at the row. -/
theorem mem_of_parent? (h : f.Followed r scored depth chosen found met) (row : f.Row parent depth chosen) :
    ∀ x ∈ found, f.parent? x = parent → x ∈ chosen := by
  intro x hx hparent
  obtain ⟨c, hc, hheads⟩ := h.found_headed w row x hx
  exact hheads.eq_of_parent? w (hparent.trans (row.parent c hc).symm) ▸ hc

/-- Of the children of one node a course ends only at such as were picked there. -/
theorem few (h : f.Followed r scored depth chosen found met) (row : f.Row parent depth chosen)
    (hmost : chosen.length ≤ r.branchFactor) (place : Option String) :
    ∃ ps : List String, ps.length ≤ r.branchFactor ∧ ∀ x ∈ found, f.parent? x = place → x ∈ ps := by
  induction h generalizing parent with
  | nil => exact ⟨[], by simp, by simp⟩
  | @stop depth c chosen _ _ stops on ih =>
      obtain ⟨ps, hps, hall⟩ := ih row.tail (by simpa using Nat.le_of_succ_le hmost)
      by_cases hplace : parent = place
      · exact ⟨_, hmost, hplace ▸ mem_of_parent? w (.stop stops on) row⟩
      refine ⟨ps, hps, fun x hx hparent => ?_⟩
      rcases List.mem_cons.mp hx with rfl | hx
      · exact (hplace ((row.parent x List.mem_cons_self).symm.trans hparent)).elim
      · exact hall x hx hparent
  | @down depth c l chosen _ _ below _ _ goes children picked down on ihdown ihon =>
      by_cases hplace : parent = place
      · exact ⟨_, hmost, hplace ▸ mem_of_parent? w (.down goes children picked down on) row⟩
      -- all nodes in question have one parent, and only one node of the row heads it
      have habove {d x : String} (hd : d ∈ c :: chosen) (hheads : f.Heads d x) (hparent : f.parent? x = place) :
          ∃ a, place = some a ∧ f.Heads d a := by
        subst hparent
        exact row.parent_heads w hd hheads (Ne.symm hplace)
      by_cases hunder : ∃ a, place = some a ∧ f.Heads c a
      · obtain ⟨a, rfl, ha⟩ := hunder
        obtain ⟨ps, hps, hall⟩ := ihdown (row.below w children picked) picked.few
        refine ⟨ps, hps, fun x hx hparent => ?_⟩
        rcases List.mem_append.mp hx with hx | hx
        · exact hall x hx hparent
        · obtain ⟨d, hd, hheads⟩ := on.found_headed w row.tail x hx
          obtain ⟨b, hb, hheads⟩ := habove (List.mem_cons_of_mem c hd) hheads hparent
          cases hb
          exact (row.ne_head hd (ha.eq_of_stands w hheads (row.stands c List.mem_cons_self)
            (row.tail.stands d hd))).elim
      · obtain ⟨ps, hps, hall⟩ := ihon row.tail (by simpa using Nat.le_of_succ_le hmost)
        refine ⟨ps, hps, fun x hx hparent => ?_⟩
        rcases List.mem_append.mp hx with hx | hx
        · exact (hunder (habove List.mem_cons_self (heads_of_down w row children picked down x hx) hparent)).elim
        · exact hall x hx hparent

end Followed

/-! ### Answers -/

theorem spread_of_followed (h : f.Followed r scored 0 chosen found met) (row : f.Row parent 0 chosen)
    (hmost : chosen.length ≤ r.branchFactor) (hlimit : ∀ limit, r.depthLimit = some limit → 1 ≤ limit) :
    f.Spread r found := by
  have hapart := h.apart w row
  have hended := h.ended w row (by simpa using hlimit)
  have honce : found.Nodup := by
    refine hapart.imp_of_mem fun {x y} hx _ hxy => ?_
    rintro rfl
    obtain ⟨d, hd, _⟩ := hended x hx
    exact hxy.1 hd.heads_self
  refine ⟨honce, fun a ha b hb p q hp hq habove => ?_, fun a ha => ?_, fun place => ?_⟩
  · by_cases hab : a = b
    · cases hab
      cases w.position_eq hp hq
      exact w.above_irrefl habove
    · have : Std.Symm fun x y => ¬ f.Heads x y ∧ ¬ f.Heads y x := ⟨fun _ _ h => h.symm⟩
      exact (hapart.forall ha hb hab).1 ⟨p, q, hp, hq, habove.to_reflTransGen⟩
  · obtain ⟨d, ⟨p, hp, hd⟩, hend, hle⟩ := hended a ha
    exact ⟨p, d, hp, hd, hend, hle⟩
  · obtain ⟨ps, hps, hall⟩ := h.few w row hmost place
    refine ((honce.filter _).subperm fun x hx => ?_).length_le.trans hps
    obtain ⟨hx, hparent⟩ := List.mem_filter.mp hx
    exact hall x hx (eq_of_beq hparent)

variable (k : store.Keyed) (stored : ∀ id ∈ f.nodeIds, store.contains id = true)
include k stored

/-- A descent stops at a leaf where the limit is not above the deepest level, with a limit or without. -/
theorem descend_unlimited (hlimit : ∀ p d, f.Depth p d → d < limit) (most : Nat) (q : Query)
    (hlevel : f.AtLevel parent depth) (out : Retrieval) :
    f.descend store s ⟨most, some limit⟩ q fuel parent depth out =
      f.descend store s ⟨most, none⟩ q fuel parent depth out := by
  induction fuel generalizing parent depth out with
  | zero => rfl
  | succ fuel ih =>
      obtain ⟨l, nodes, hl, hnodes, _, _, hstands⟩ := level_candidates w k stored hlevel
      unfold descend
      simp only [hl, hnodes, liftM_ok_bind]
      refine bind_congr fun picks => ?_
      refine congrArg (fun step => picks.foldlM step out) (funext₂ fun out pick => ?_)
      cases hchild : nodes[pick.1]? with
      | none => rfl
      | some child =>
          obtain ⟨_, p, hp, _, hd⟩ := hstands child (List.mem_of_getElem? hchild)
          have hstops : ((⟨most, some limit⟩ : Reach).stopsAt depth || f.isLeaf child.id) =
              ((⟨most, none⟩ : Reach).stopsAt depth || f.isLeaf child.id) := by
            simp only [Reach.stopsAt, Option.any_some, Option.any_none, Bool.false_or, Bool.or_eq_right_iff_imp,
              decide_eq_true_iff]
            intro hle
            refine isLeaf_iff.mpr fun q hq => ?_
            have := hlimit q (depth + 1) (hd.child ⟨child.id, hp, hq⟩)
            omega
          have hdeeper : f.AtLevel (some child.id) (depth + 1) := ⟨p, depth, hp, hd, rfl⟩
          simp only [hstops, ih hdeeper]

end Courses

/-- What a search ends at in a forest made by edits, whatever is replied to it; and a limit that no node
lies below gives the answer that there is without a limit. -/
theorem descent_spreads (hf : f.Built) (k : store.Keyed) (stored : ∀ id ∈ f.nodeIds, store.contains id = true)
    (hs : s.Searches E) (hbranch : 1 ≤ r.branchFactor)
    (hlimit : ∀ limit, r.depthLimit = some limit → 1 ≤ limit) (q : Query) :
    Ends (f.retrieve store (.descent s) r q) (fun out => f.Spread r (out.hits.map (·.node.id))) E ∧
      ∀ limit, r.depthLimit = some limit → (∀ p d, f.Depth p d → d < limit) →
        f.retrieve store (.descent s) r q =
          f.retrieve store (.descent s) { r with depthLimit := none } q := by
  have w := hf.wellFormed
  have hpositive : r.depthLimit ≠ some 0 := fun h => absurd (hlimit 0 h) (by decide)
  constructor
  · rw [retrieve_descent hbranch hpositive]
    obtain ⟨scored, hs⟩ := hs.chooses
    refine Ends.ite (Ends.pure (spread_nil f r)) ?_
    refine (descend_follows w k stored hs hbranch (atLevel_roots f) (by simp only [depthBound]; omega) {}).imp
      ?_ fun _ h => h
    rintro out ⟨l, chosen, hl, picked, found, met, hfollowed, hadds⟩
    rw [hadds.ids]
    exact spread_of_followed w hfollowed (row_of_picked w (atLevel_roots f) hl picked) picked.few hlimit
  · intro limit hr hdepth
    obtain ⟨most, limit'⟩ := r
    cases hr
    rw [retrieve_descent hbranch hpositive, retrieve_descent (r := ⟨most, none⟩) hbranch (by simp),
      descend_unlimited w k stored hdepth most q (atLevel_roots f) {}]

/-- `a` above `b` and `c`, and `b` above `d` and `e`. -/
def family : Forest :=
  after { id := "t" } [.insertUnder "a" none none, .insertManyUnder ["b", "c"] (some "a"),
    .insertManyUnder ["d", "e"] (some "b")]

def familyStore : NodeStore := (["a", "b", "c", "d", "e"].map fun id => { id, text := id }).foldl NodeStore.put {}

/-- Gives one reply to every prompt. -/
def replying (reply : String) : LanguageModel Unit := ⟨fun _ => pure reply⟩

/-- The reply is read at each level anew: at the root only its second number is in range. -/
theorem descent_spreads_family : family.Built ∧ familyStore.Keyed ∧
    (∀ id ∈ family.nodeIds, familyStore.contains id = true) ∧
    (Selector.forQuery (replying "ANSWER: 2, 1")).Searches (fun _ => False) ∧
    ∃ out, (family.retrieve familyStore (.descent (.forQuery (replying "ANSWER: 2, 1"))) ⟨2, some 2⟩
      ⟨"q", none⟩).run () = (.ok out, ()) ∧ out.hits.map (·.node.id) = ["c", "b"] ∧
      family.Spread ⟨2, some 2⟩ ["c", "b"] := by
  have built : family.Built := ⟨"t", none, _, rfl⟩
  have keyed : familyStore.Keyed := .foldl_put NodeStore.keyed_empty
  have stored : ∀ id ∈ family.nodeIds, familyStore.contains id = true := by decide
  have searches : (Selector.forQuery (replying "ANSWER: 2, 1")).Searches (fun _ => False) :=
    .model fun _ => Ends.pure trivial
  have h := descent_spreads (r := ⟨2, some 2⟩) built keyed stored searches (by decide) (by simp) ⟨"q", none⟩
  have hids : ((family.retrieve familyStore (.descent (.forQuery (replying "ANSWER: 2, 1"))) ⟨2, some 2⟩
      ⟨"q", none⟩).run ()).1.toOption.map (fun out => out.hits.map (·.node.id)) = some ["c", "b"] := by
    decide +kernel
  obtain ⟨out, _, hrun, hspread⟩ := h.1.succeeds ()
  rw [hrun] at hids
  have hids := Option.some.inj hids
  exact ⟨built, keyed, stored, searches, out, hrun, hids, hids ▸ hspread⟩

end CorpusIndex.Forest
