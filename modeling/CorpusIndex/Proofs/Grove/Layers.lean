import CorpusIndex.Proofs.Answers.Picks
import CorpusIndex.Proofs.Grove.Extension

/-!
# Levels of leaves and levels of summaries

Whether a level is one of leaves is told by the first of its nodes. That is right as long as the nodes of
each level are all leaves or all have children, which a build brings about. An insertion keeps it so when its
selector picks a child wherever there is one: the node goes down to a level of leaves, and a split puts two
summaries in place of all of them. Then only derived nodes ever have children.
-/
namespace CorpusIndex

variable {σ : Type}

/-! ### Selectors that always pick -/

/-- Comparing embeddings, a selector always picks a candidate. -/
theorem Selector.decisive_byEmbedding (e : Embedder σ) : (Selector.byEmbedding e).Decisive := by
  intro query candidates hne
  refine (Selector.byEmbedding_chooses e.failsIn_outside query candidates 1 le_rfl).imp (fun picks h => ?_)
    fun _ _ => trivial
  have hpos := List.length_pos_iff.mpr hne
  have hlength := h.many rfl
  cases picks with
  | nil =>
      rw [List.length_nil] at hlength
      omega
  | cons p rest => exact ⟨p, rfl, h.inRange p.1 List.mem_cons_self⟩

namespace Forest

variable {t : Terms} {tree : String} {f : Forest} {store given : NodeStore} {g g' : Grove} {id : String}
  {parent place : Option String} {adopted : SortedSet Nat} {group rest done : List String} {width p : Nat}

/-! ### Levels -/

/-- The nodes of a level are all leaves, or all have children. -/
def Alike (f : Forest) (parent : Option String) : Prop :=
  ∃ b, ∀ q c, f.nodes.get? q = some c → f.IsChild parent q → f.isLeaf c = b

/-- Nodes with children are stored as derived ones. -/
def InnerDerived (g : Grove) : Prop :=
  ∀ x, g.1.isLeaf x = false → ∃ n, g.2.nodes.get? x = some n ∧ n.document = none

/-- All levels are levels of leaves or of inner nodes, and only derived nodes have children. -/
structure Layered (g : Grove) : Prop where
  alike : ∀ parent, Alike g.1 parent
  derived : InnerDerived g

/-- A level is being covered: the nodes of `rest` are alike, all others at this level have children. -/
structure Covering (place : Option String) (rest : List String) (g : Grove) : Prop where
  others : ∀ parent, parent ≠ place → Alike g.1 parent
  present : ∀ c ∈ rest, ∃ q, g.1.nodes.get? q = some c ∧ g.1.IsChild place q
  alike : ∃ b, ∀ c ∈ rest, g.1.isLeaf c = b
  covered : ∀ q c, g.1.nodes.get? q = some c → g.1.IsChild place q → c ∉ rest → g.1.isLeaf c = false
  derived : InnerDerived g

/-- The level of `place` before any of it is covered. -/
theorem Layered.covering {l : List (Nat × String)} (h : Layered g) (hl : g.1.Siblings place l) :
    Covering place (l.map (·.2)) g := by
  obtain ⟨b, hb⟩ := h.alike place
  refine ⟨fun parent _ => h.alike parent, fun c hc => hl.mem_ids.mp hc, ⟨b, fun c hc => ?_⟩,
    fun q c hq hchild hout => (hout (hl.mem_ids.mpr ⟨q, hq, hchild⟩)).elim, h.derived⟩
  obtain ⟨q, hq, hchild⟩ := hl.mem_ids.mp hc
  exact hb q c hq hchild

/-- A level that is covered wholly, or not at all, is one of nodes that are alike. -/
theorem Covering.layered (h : Covering place rest g)
    (hrest : ∀ q c, g.1.nodes.get? q = some c → g.1.IsChild place q → rest ≠ [] → c ∈ rest) : Layered g := by
  refine ⟨fun parent => ?_, h.derived⟩
  by_cases hparent : parent = place
  · subst hparent
    by_cases hnil : rest = []
    · exact ⟨false, fun q c hq hchild => h.covered q c hq hchild (by simp [hnil])⟩
    · obtain ⟨b, hb⟩ := h.alike
      exact ⟨b, fun q c hq hchild => hb c (hrest q c hq hchild hnil)⟩
  · exact h.others parent hparent

/-! ### Grafts -/

section Graft
variable (hg : f.Graftable id parent adopted p) (w : f.Wired) (hpar : ∀ a, parent = some a → f.isLeaf a = false)
include hg w hpar

/-- What was below a node is the same node afterwards, and a leaf if it was one. -/
theorem Graftable.child_graft {q : Nat} {c : String} (hchild : f.IsChild place q)
    (hq : (f.graft id parent adopted p).nodes.get? q = some c) :
    f.nodes.get? q = some c ∧ (f.graft id parent adopted p).isLeaf c = f.isLeaf c := by
  obtain ⟨d, hd⟩ := w.isChild_occupied hchild
  cases (hg.keeps_node hd).symm.trans hq
  exact ⟨hd, hg.isLeaf_graft_of_ne w hpar (hg.ne_of_node w hd)⟩

/-- A graft changes no level but the one it is made at, and the one it makes. -/
theorem Graftable.alike_graft (hplace : place ≠ parent) (hid : place ≠ some id) (h : Alike f place) :
    Alike (f.graft id parent adopted p) place := by
  obtain ⟨b, hb⟩ := h
  refine ⟨b, fun q c hq hchild => ?_⟩
  rcases (hg.isChild_graft_of_ne w hid).mp hchild with ⟨heq, _⟩ | ⟨hchild, _⟩
  · exact (hplace heq).elim
  · obtain ⟨hget, hleaf⟩ := hg.child_graft w hpar hchild hq
    rw [hleaf, hb q c hget hchild]

end Graft

/-- A node is attached at a level of leaves that is not below a leaf. -/
theorem Layered.attach (h : Layered (f, store)) (w : f.Wired) (hg : f.Graftable id parent ∅ p)
    (hpar : ∀ a, parent = some a → f.isLeaf a = false)
    (hleaves : ∀ q c, f.nodes.get? q = some c → f.IsChild parent q → f.isLeaf c = true) :
    Layered (f.graft id parent ∅ p, store) := by
  have hnone (q : Nat) : ¬ (f.graft id parent ∅ p).Holds id q := fun hq =>
    SortedSet.not_mem_empty q ((hg.holds_graft_self w).mp hq)
  have hself : (f.graft id parent ∅ p).isLeaf id = true := isLeaf_iff.mpr hnone
  refine ⟨fun place => ?_, fun x hx => h.derived x ?_⟩
  · by_cases hid : place = some id
    · subst hid
      exact ⟨true, fun q c _ hchild => (hnone q hchild).elim⟩
    by_cases hplace : place = parent
    · subst hplace
      refine ⟨true, fun q c hq hchild => ?_⟩
      rcases (hg.isChild_graft_of_ne w hid).mp hchild with ⟨_, rfl⟩ | ⟨hchild, _⟩
      · cases (SortedMap.get?_insert_self ..).symm.trans hq
        exact hself
      · obtain ⟨hget, hleaf⟩ := hg.child_graft w hpar hchild hq
        rw [hleaf, hleaves q c hget hchild]
    · exact hg.alike_graft w hpar hplace hid (h.alike place)
  · rwa [hg.isLeaf_graft_of_ne w hpar] at hx
    rintro rfl
    cases hx.symm.trans hself

theorem Covered.innerDerived (hc : Covered t parent group p g g') (w : g.1.Wired)
    (hpar : ∀ a, parent = some a → g.1.isLeaf a = false) (h : InnerDerived g) : InnerDerived g' := by
  have hnodes {x : String} (hx : g.1.contains x = true) : g'.2.nodes.get? x = g.2.nodes.get? x :=
    (hc.keeps_nodes hx).2
  cases hc with
  | @mk f store adopted text next graft adopts ordered answer =>
  intro x hx
  by_cases hid : x = summaryId f.id p
  · subst hid
    refine ⟨summaryNode (summaryId f.id p) text group, ?_, summaryNode_document ..⟩
    exact SortedMap.get?_insert_eq_some.mpr (.inl ⟨(summaryNode_id ..).symm, rfl⟩)
  · rw [graft.isLeaf_graft_of_ne w hpar hid] at hx
    obtain ⟨n, hn, hdocument⟩ := h x hx
    obtain ⟨q, hq⟩ := not_isLeaf_iff.mp hx
    exact ⟨n, (hnodes (w.contains_iff.mpr (w.holds_present hq))).trans hn, hdocument⟩

/-- A group is covered: its nodes are a level of their own now, below a summary that has children. -/
theorem Covered.covering (hc : Covered t place group p g g') (h : Covering place (group ++ rest) g)
    (w : g.1.Wired) (hne : group ≠ []) (hnd : (group ++ rest).Nodup) : Covering place rest g' := by
  obtain ⟨first, hfirst⟩ := List.exists_mem_of_ne_nil group hne
  obtain ⟨r, hr, hbelow⟩ := h.present first (by simp [hfirst])
  have hpar : ∀ a, place = some a → g.1.isLeaf a = false := by
    rintro a rfl
    exact not_isLeaf_iff.mpr ⟨r, hbelow⟩
  have hderived := hc.innerDerived w hpar h.derived
  cases hc with
  | @mk f store adopted text next graft adopts ordered answer =>
  let id := summaryId f.id p
  have hadopted : r ∈ adopted := (adopts r).mpr ⟨first, hfirst, hr⟩
  have hsame {q : Nat} {c : String} (hq : f.nodes.get? q = some c) :
      (f.graft id place adopted p).isLeaf c = f.isLeaf c :=
    graft.isLeaf_graft_of_ne w hpar (graft.ne_of_node w hq)
  refine ⟨fun parent hparent => ?_, fun c hc => ?_, ?_, fun q c hq hchild hout => ?_, hderived⟩
  · by_cases hid : parent = some id
    · subst hid
      obtain ⟨b, hb⟩ := h.alike
      refine ⟨b, fun q c hq hchild => ?_⟩
      obtain ⟨d, hd, hqd⟩ := (adopts q).mp ((graft.holds_graft_self w).mp hchild)
      cases (graft.keeps_node hqd).symm.trans hq
      rw [hsame hqd, hb c (by simp [hd])]
    · exact graft.alike_graft w hpar hparent hid (h.others parent hparent)
  · obtain ⟨q, hq, hchild⟩ := h.present c (by simp [hc])
    refine ⟨q, graft.keeps_node hq, graft.isChild_graft w hchild fun hin => ?_⟩
    obtain ⟨d, hd, hqd⟩ := (adopts q).mp hin
    cases hq.symm.trans hqd
    exact (List.nodup_append.mp hnd).2.2 c hd c hc rfl
  · obtain ⟨b, hb⟩ := h.alike
    refine ⟨b, fun c hc => ?_⟩
    obtain ⟨q, hq, _⟩ := h.present c (by simp [hc])
    rw [hsame hq, hb c (by simp [hc])]
  · rcases (graft.isChild_graft_of_ne w graft.parent_ne).mp hchild with ⟨_, rfl⟩ | ⟨hold, hkept⟩
    · cases (SortedMap.get?_insert_self ..).symm.trans hq
      exact not_isLeaf_iff.mpr ⟨r, (graft.holds_graft_self w).mpr hadopted⟩
    · obtain ⟨hget, hleaf⟩ := graft.child_graft w hpar hold hq
      rw [hleaf, h.covered q c hget hold]
      intro hin
      rcases List.mem_append.mp hin with hin | hin
      · exact hkept ⟨rfl, (adopts q).mpr ⟨c, hin, hget⟩⟩
      · exact hout hin

/-! ### Insertions -/

theorem Attached.layered (h : Attached t width id parent g g') (hwidth : 2 ≤ width) (hg : Grounded g)
    (hl : Layered g) (hpar : ∀ a, parent = some a → g.1.isLeaf a = false)
    (hleaves : ∀ q c, g.1.nodes.get? q = some c → g.1.IsChild parent q → g.1.isLeaf c = true) :
    Layered g' := by
  have w := hg.wellFormed.toWired
  cases h with
  | fits stored next graft => exact hl.attach w graft hpar hleaves
  | @split f store p l left right stored next graft siblings wide hleft hright =>
      have hgraft := hg.graft graft stored
      obtain ⟨first, hleft, _⟩ := hleft
      obtain ⟨second, hright, _⟩ := hright
      have hw := hgraft.wellFormed.toWired
      let ids := l.map (·.2)
      have hnd : ids.Nodup := InOrder.nodup hw ⟨l, siblings.toAscending, rfl⟩
      have hhalves : ids.take (l.length / 2) ++ ids.drop (l.length / 2) = ids := List.take_append_drop ..
      have hlength : ids.length = l.length := List.length_map ..
      have hfirst : ids.take (l.length / 2) ≠ [] := by
        rw [← List.length_pos_iff, List.length_take]
        omega
      have hlast : ids.drop (l.length / 2) ≠ [] := by
        rw [← List.length_pos_iff, List.length_drop]
        omega
      have hcovering : Covering parent (ids.take (l.length / 2) ++ ids.drop (l.length / 2))
          (f.graft id parent ∅ p, store) := by
        rw [hhalves]
        exact (hl.attach w graft hpar hleaves).covering siblings
      -- first the left half is covered, then the right one, and nothing is left of the level
      have hhalf := hleft.covering hcovering hw hfirst (hhalves.symm ▸ hnd)
      rw [← List.append_nil (ids.drop _)] at hhalf
      have hdone := hright.covering hhalf (hleft.wired hw) hlast
        (by rw [List.append_nil]; exact hnd.sublist (List.drop_sublist ..))
      exact hdone.layered fun q c _ _ hne => (hne rfl).elim

theorem Refreshed.layered (h : Refreshed t parent g g') (hl : Layered g) : Layered g' := by
  cases h with
  | roots => exact hl
  | @above f store a text n l texts siblings read answer stored =>
      refine ⟨hl.alike, fun x hx => ?_⟩
      obtain ⟨m, hm, hdocument⟩ := hl.derived x hx
      by_cases hxa : x = a
      · subst hxa
        cases stored.symm.trans hm
        exact ⟨{ n with text }, SortedMap.get?_insert_self .., hdocument⟩
      · exact ⟨m, (SortedMap.get?_insert_of_ne _ _ hxa).trans hm, hdocument⟩

/-- A node goes down from inner node to inner node, to a level of leaves. -/
theorem Inserted.layered (h : Inserted t width id parent g g') (hd : t.decisive) (hwidth : 2 ≤ width)
    (hg : Grounded g) (hl : Layered g) (hpar : ∀ a, parent = some a → g.1.isLeaf a = false) : Layered g' := by
  induction h with
  | @arrived parent l g g₁ g₂ siblings atLeaves attached refreshed =>
      refine refreshed.layered (attached.layered hwidth hg hl hpar fun q c hq hchild => ?_)
      obtain ⟨b, hb⟩ := hl.alike parent
      have hc : c ∈ l.map (·.2) := siblings.mem_ids.mpr ⟨q, hq, hchild⟩
      -- the first node is a leaf, so all of its level are
      cases l with
      | nil => cases hc
      | cons e l =>
          obtain ⟨r, hr, hfirst⟩ := siblings.mem_ids.mp (List.mem_map_of_mem (List.mem_cons_self ..))
          rw [hb q c hq hchild, ← hb r e.2 hr hfirst]
          exact atLeaves hd e rfl
  | @descended parent l c g g₁ g₂ siblings inner child inserted refreshed ih =>
      refine refreshed.layered (ih hg hl ?_)
      rintro _ ⟨⟩
      obtain ⟨b, hb⟩ := hl.alike parent
      obtain ⟨e, he, hinner⟩ := inner
      obtain ⟨r, hr, hfirst⟩ := siblings.mem_ids.mp (List.mem_map_of_mem (List.mem_of_mem_head? he))
      obtain ⟨q, hq, hchild⟩ := siblings.mem_ids.mp child
      rw [hb q c hq hchild, ← hb r e.2 hr hfirst, hinner]

/-! ### Builds -/

/-- At the level of the roots those not covered yet are alike; at its end all roots are done. -/
def Rising (done rest : List String) (g : Grove) : Prop :=
  g.1.Fronts (done ++ rest) ∧ Covering none (if rest = [] then done else rest) g

/-- Among leaves alone every level is one of leaves. -/
theorem rising_of_bare (w : f.Wired) (hbare : ∀ x q, ¬ f.Holds x q) (hroots : f.Fronts done) :
    Rising done [] (f, store) := by
  have hleaf (x : String) : f.isLeaf x = true := isLeaf_iff.mpr (hbare x)
  refine ⟨by rwa [List.append_nil], fun parent _ => ⟨true, fun q c _ _ => hleaf c⟩,
    fun c hc => (hroots.mem_iff w).mp hc, ⟨true, fun c _ => hleaf c⟩,
    fun q c hq hchild hout => (hout ((hroots.mem_iff w).mpr ⟨q, hq, hchild⟩)).elim, fun x hx => ?_⟩
  cases (hleaf x).symm.trans hx

/-- Once all roots have children, they are alike. -/
theorem Covering.turn (h : Covering none [] g) (w : g.1.Wired) (hroots : g.1.Fronts done) :
    Covering none done g := by
  refine ⟨h.others, fun c hc => (hroots.mem_iff w).mp hc, ⟨false, fun c hc => ?_⟩,
    fun q c hq hchild _ => h.covered q c hq hchild List.not_mem_nil, h.derived⟩
  obtain ⟨q, hq, hchild⟩ := (hroots.mem_iff w).mp hc
  exact h.covered q c hq hchild List.not_mem_nil

theorem Rising.covering (h : Rising done [] g) : Covering none done g := by
  simpa using h.2

theorem builds_rising (t : Terms) (store : NodeStore) : Builds t store Rising where
  plant {f done id p} hg h hbare _ hp hgraft := by
    have w : f.Wired := hg.wellFormed.toWired
    have hroots : f.Fronts done := by simpa using h.1
    exact rising_of_bare (hgraft.wired_graft w) (hgraft.bare_graft w hbare)
      (hroots.plant hg.wellFormed hgraft)
  turn {g done} _ h := by
    refine ⟨by simpa using h.1, ?_⟩
    have hcovering := h.covering
    split
    next hnil => rwa [hnil] at hcovering
    next => exact hcovering
  cover {g g' done group rest p} hg h hne hc := by
    have w := hg.wellFormed.toWired
    have hnd : (group ++ rest).Nodup := (List.nodup_append.mp h.1.1).2.1
    have hcovering : Covering none (group ++ rest) g := by
      have hfull := h.2
      rwa [if_neg fun hnil => hne (List.append_eq_nil_iff.mp hnil).1] at hfull
    have hcovered := hc.covering hcovering w hne hnd
    have hw' := hc.wired w
    cases hc with
    | mk next graft adopts ordered answer =>
        have hroots := Fronts.cover hg.wellFormed graft h.1 adopts
        refine ⟨hroots, ?_⟩
        split
        next hnil =>
          subst hnil
          exact hcovered.turn hw' (by simpa using hroots)
        next => exact hcovered

/-- As long as selectors always pick, levels are levels of leaves or of inner nodes. -/
theorem lasting_layered (t : Terms) (tree : String) : Lasting t tree fun _ g => t.decisive → Layered g where
  built {store} _ := by
    refine ⟨_, builds_rising t store, ?_, fun {f store' summary level} hg h _ _ => ?_⟩
    · have hnone : ({ id := tree } : Forest).Fronts [] := ⟨List.nodup_nil, fun x => by simp⟩
      exact rising_of_bare (wellFormed_empty tree none).toWired
        (fun x q hq => SortedSet.not_mem_empty q hq) hnone
    · have hroots : f.Fronts level := by simpa using h.1
      have hlayered := h.covering.layered fun q c hq hchild _ =>
        (hroots.mem_iff hg.wellFormed.toWired).mpr ⟨q, hq, hchild⟩
      exact ⟨hlayered.alike, hlayered.derived⟩
  entered {given g batch} hnd hnew _ hg h hd := by
    refine ⟨(h hd).alike, fun x hx => ?_⟩
    obtain ⟨n, hn, hdocument⟩ := (h hd).derived x hx
    refine ⟨n, (NodeStore.get?_foldl_put hnd).mpr (.inr ⟨fun hin => ?_, hn⟩), hdocument⟩
    obtain ⟨m, hm, rfl⟩ := List.mem_map.mp hin
    cases (NodeStore.contains_iff.mpr ⟨n, hn⟩).symm.trans (hnew m hm)
  inserted hwidth _ _ hg h hinserted hd := hinserted.layered hd hwidth hg (h hd) (by simp)

end Forest
end CorpusIndex
