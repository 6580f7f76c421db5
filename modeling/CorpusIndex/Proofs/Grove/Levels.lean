import CorpusIndex.Proofs.Grove.Building

/-!
# Levels above a row of leaves

A build gives the leaves the first positions, in order, and every summary the next position after all that
are in use. The nodes of the forest are therefore a row: leaves first, then the summaries in the order they
were made (`Stacked`). Roots are the nodes of the current level (`Fronts`), so each group of it can be put
under a summary. Every level is at most two thirds as wide as the one below, which bounds the number of
summaries by twice the number of leaves.
-/
namespace CorpusIndex

variable {σ α : Type}

namespace Forest
variable {s : Summarizer σ} {tree id x : String} {f : Forest} {row leaves ids rest : List String}
  {adopted : SortedSet Nat} {growth : Growth} {width p : Nat} {store : NodeStore}

/-! ### Rows -/

/-- The nodes stand at their places in the row. -/
def InRow (f : Forest) (row : List String) : Prop := ∀ p x, f.nodes.get? p = some x ↔ row[p]? = some x

namespace InRow

theorem empty (tree : String) : ({ id := tree } : Forest).InRow [] := by
  intro p x
  simp

theorem nodeIds (h : f.InRow row) : f.nodeIds = row := SortedMap.values_eq_of_getElem? h

theorem free (h : f.InRow row) : f.nodes.get? row.length = none := by
  refine Option.eq_none_iff_forall_ne_some.mpr fun x hx => ?_
  simpa using (h _ x).mp hx

theorem nextPosition (h : f.InRow row) (room : row.length ≤ Decimal.maxWord) :
    f.nextPosition = .ok row.length := by
  have hocc (p : Nat) : (∃ x, f.nodes.get? p = some x) ↔ p < row.length :=
    ⟨fun ⟨x, hx⟩ => (List.getElem?_eq_some_iff.mp ((h p x).mp hx)).1,
      fun hp => ⟨row[p], (h p _).mpr (List.getElem?_eq_getElem hp)⟩⟩
  unfold Forest.nextPosition
  cases hlast : f.nodes.lastKey? with
  | none =>
      have hempty : ¬ 0 < row.length := fun hpos => by
        obtain ⟨x, hx⟩ := (hocc 0).mpr hpos
        cases hx.symm.trans (SortedMap.lastKey?_eq_none hlast 0)
      have hzero : row.length = 0 := by omega
      rw [hzero]
  | some last =>
      have hlt : last < row.length := (hocc last).mp (SortedMap.lastKey?_occupied hlast)
      obtain ⟨x, hx⟩ := (hocc (row.length - 1)).mpr (by omega)
      have hle : row.length - 1 ≤ last := by
        rcases SortedMap.le_lastKey? hlast hx with heq | hlt
        · exact Nat.le_of_eq heq
        · exact Nat.le_of_lt (Nat.compare_eq_lt.mp hlt)
      have hnext : last + 1 = row.length := by omega
      simp only [show last < Decimal.maxWord by omega, if_true, hnext]

/-- The next position, where there is one, is the place after the row. -/
theorem eq_of_nextPosition (h : f.InRow row) (hp : f.nextPosition = .ok p) : p = row.length := by
  have hle : row.length ≤ p := by
    by_contra hlt
    cases (nextPosition_free hp).symm.trans ((h p _).mpr (List.getElem?_eq_getElem (Nat.not_le.mp hlt)))
  unfold Forest.nextPosition at hp
  cases hlast : f.nodes.lastKey? with
  | none =>
      simp only [hlast, Except.ok.injEq] at hp
      omega
  | some last =>
      obtain ⟨x, hx⟩ := SortedMap.lastKey?_occupied hlast
      obtain ⟨hlt, _⟩ := List.getElem?_eq_some_iff.mp ((h last x).mp hx)
      simp only [hlast] at hp
      split at hp
      · cases hp
        omega
      · cases hp

theorem graft (h : f.InRow row) (id : String) (adopted : SortedSet Nat) :
    (f.graft id none adopted row.length).InRow (row ++ [id]) := by
  intro p x
  rw [nodes_graft, SortedMap.get?_insert_eq_some, h]
  rcases Nat.lt_trichotomy p row.length with hp | rfl | hp
  · simp [List.getElem?_append_left hp, Nat.ne_of_lt hp]
  · simp [eq_comm]
  · rw [List.getElem?_eq_none (Nat.le_of_lt hp), List.getElem?_eq_none (by simp; omega)]
    simp [Nat.ne_of_gt hp]

end InRow

/-- The roots are these nodes, each once. -/
def Fronts (f : Forest) (ids : List String) : Prop :=
  ids.Nodup ∧ ∀ x, x ∈ ids ↔ ∃ p, f.roots.get? p = some x

theorem Fronts.mem_iff (w : f.Wired) (h : f.Fronts ids) :
    x ∈ ids ↔ ∃ q, f.nodes.get? q = some x ∧ f.IsRoot q := by
  rw [h.2]
  constructor
  · intro ⟨q, hq⟩
    exact ⟨q, ((w.roots_iff q x).mp hq).1, x, hq⟩
  · intro ⟨q, hq, y, hy⟩
    cases hq.symm.trans ((w.roots_iff q y).mp hy).1
    exact ⟨q, hy⟩

namespace Fronts
variable (w : f.WellFormed) (hg : f.Graftable id none adopted p)
include w hg

/-- A group of roots gives way to the summary above them. -/
theorem cover {group : List String} (h : f.Fronts (ids ++ (group ++ rest)))
    (hadopted : ∀ q, q ∈ adopted ↔ ∃ c ∈ group, f.nodes.get? q = some c) :
    (f.graft id none adopted p).Fronts (ids ++ [id] ++ rest) := by
  obtain ⟨hnd, hroots⟩ := h
  have hnew : id ∉ ids ++ (group ++ rest) := fun hin => by
    obtain ⟨q, hq⟩ := (hroots id).mp hin
    cases (w.contains_iff.mpr ⟨q, ((w.roots_iff q id).mp hq).1⟩).symm.trans hg.fresh
  have hnode (q : Nat) (x : String) (hq : f.roots.get? q = some x) : f.nodes.get? q = some x :=
    ((w.roots_iff q x).mp hq).1
  have hin (q : Nat) (x : String) (hq : f.roots.get? q = some x) : q ∈ adopted ↔ x ∈ group := by
    rw [hadopted]
    exact ⟨fun ⟨c, hc, hcq⟩ => Option.some.inj ((hnode q x hq).symm.trans hcq) ▸ hc,
      fun hx => ⟨x, hx, hnode q x hq⟩⟩
  have hkept (x : String) : x ∈ ids ++ [id] ++ rest ↔
      x = id ∨ (x ∈ ids ++ (group ++ rest) ∧ x ∉ group) := by
    have hids : x ∈ ids → x ∉ group := fun hx hxg =>
      (List.nodup_append.mp hnd).2.2 x hx x (List.mem_append_left _ hxg) rfl
    have hrest : x ∈ rest → x ∉ group := fun hx hxg =>
      (List.nodup_append.mp (List.nodup_append.mp hnd).2.1).2.2 x hxg x hx rfl
    simp only [List.mem_append, List.mem_singleton]
    tauto
  refine ⟨?_, fun x => ?_⟩
  · have hsub : (ids ++ rest).Sublist (ids ++ (group ++ rest)) :=
      (List.Sublist.refl ids).append (List.sublist_append_right group rest)
    rw [List.append_assoc, List.singleton_append, List.perm_middle.nodup_iff]
    exact List.nodup_cons.mpr ⟨fun hx => hnew (hsub.subset hx), hnd.sublist hsub⟩
  · rw [hkept, hroots]
    simp only [hg.roots_graft w.toWired, true_and]
    constructor
    · rintro (rfl | ⟨⟨q, hq⟩, hx⟩)
      · exact ⟨p, .inl ⟨rfl, rfl⟩⟩
      · exact ⟨q, .inr ⟨hq, fun hqa => hx ((hin q x hq).mp hqa)⟩⟩
    · rintro ⟨q, ⟨_, rfl⟩ | ⟨hq, hout⟩⟩
      · exact .inl rfl
      · exact .inr ⟨⟨q, hq⟩, fun hx => hout ((hin q x hq).mpr hx)⟩

end Fronts

/-! ### From the leaves upward -/

/-- A forest being built above leaves: what stands where, and which nodes have others below them. -/
structure Stacked (tree : String) (leaves : List String) (g : Growth) : Prop where
  id_eq : g.forest.id = tree
  wellFormed : g.forest.WellFormed
  row : g.forest.InRow (leaves ++ g.made.map (·.id))
  made : g.made.map (·.id) = (List.range g.made.length).map fun k => summaryId tree (leaves.length + k)
  bare : ∀ x ∈ leaves, g.forest.isLeaf x = true
  covering : ∀ n ∈ g.made, g.forest.isLeaf n.id = false

namespace Stacked
variable (h : Stacked tree leaves growth)
include h

/-- The leaves of the forest are the leaves it was built above, in order. -/
theorem leafIds : growth.forest.leafIds = leaves := by
  rw [Forest.leafIds, h.row.nodeIds, List.filter_append, List.filter_eq_self.mpr h.bare,
    List.filter_eq_nil_iff.mpr, List.append_nil]
  intro x hx
  obtain ⟨n, hn, rfl⟩ := List.mem_map.mp hx
  simp [h.covering n hn]

/-- The summary of the next position is new. -/
theorem summary_new (plain : ∀ x ∈ leaves, ∀ k, x ≠ summaryId tree k)
    (hp : p = leaves.length + growth.made.length) : growth.forest.contains (summaryId tree p) = false := by
  rw [← Bool.not_eq_true]
  intro hc
  obtain ⟨q, hq⟩ := h.wellFormed.contains_iff.mp hc
  rcases List.mem_append.mp (List.mem_of_getElem? ((h.row q _).mp hq)) with hin | hin
  · exact plain _ hin _ rfl
  · rw [h.made] at hin
    obtain ⟨k, hk, heq⟩ := List.mem_map.mp hin
    have hlt := List.mem_range.mp hk
    have hsame := summaryId_injective heq
    omega

/-- What is in the row is a node. -/
theorem contains_of_mem (hx : x ∈ leaves ++ growth.made.map (·.id)) : growth.forest.contains x = true := by
  rw [← h.wellFormed.mem_nodeIds, h.row.nodeIds]
  exact hx

/-- A summary enters above some of the roots. -/
theorem cover (hp : p = leaves.length + growth.made.length)
    (hg : growth.forest.Graftable (summaryId tree p) none adopted p) (hadopted : ∃ q, q ∈ adopted)
    (text : String) (below : List String) (level : List (String × String)) :
    Stacked tree leaves ⟨growth.forest.graft (summaryId tree p) none adopted p,
      growth.made ++ [summaryNode (summaryId tree p) text below], level⟩ := by
  have w := h.wellFormed.toWired
  have hlength : p = (leaves ++ growth.made.map (·.id)).length := by simp [hp]
  refine ⟨h.id_eq, hg.wellFormed_graft h.wellFormed, ?_, ?_, fun x hx => ?_, fun n hn => ?_⟩
  · have hrow := h.row.graft (summaryId tree p) adopted
    rw [← hlength] at hrow
    simpa [summaryNode_id] using hrow
  · simp [List.range_succ, h.made, summaryNode_id, hp]
  · refine isLeaf_iff.mpr fun q hq => ?_
    rcases (hg.holds_graft w).mp hq with ⟨rfl, _⟩ | ⟨hnone, _⟩ | ⟨hq, _⟩
    · cases (h.contains_of_mem (List.mem_append_left _ hx)).symm.trans hg.fresh
    · cases hnone
    · exact isLeaf_iff.mp (h.bare x hx) q hq
  · rcases List.mem_append.mp hn with hn | hn
    · obtain ⟨q, hq⟩ := not_isLeaf_iff.mp (h.covering n hn)
      exact not_isLeaf_iff.mpr ⟨q, (hg.holds_graft w).mpr (.inr (.inr ⟨hq, by simp⟩))⟩
    · rw [List.mem_singleton.mp hn, summaryNode_id]
      obtain ⟨q, hq⟩ := hadopted
      exact not_isLeaf_iff.mpr ⟨q, (hg.holds_graft w).mpr (.inl ⟨rfl, hq⟩)⟩

end Stacked

/-! ### The leaves -/

theorem insert_next {cs : List String} (h : f.nextPosition = .ok p) :
    f.insert id none cs = f.insert id (some p) cs := by
  simp only [insert, choosePosition, h]

/-- A leaf enters beside the others before there is any summary. -/
theorem Stacked.plant {level : List (String × String)} (h : Stacked tree row ⟨f, [], level⟩)
    (hg : f.Graftable id none ∅ row.length) :
    Stacked tree (row ++ [id]) ⟨f.graft id none ∅ row.length, [], level⟩ := by
  have w : f.Wired := h.wellFormed.toWired
  have hrow : f.InRow row := by simpa using h.row
  refine ⟨h.id_eq, hg.wellFormed_graft h.wellFormed, by simpa using hrow.graft id ∅, rfl,
    fun x hx => isLeaf_iff.mpr fun q hq => ?_, by simp⟩
  rcases (hg.holds_graft w).mp hq with ⟨_, hq⟩ | ⟨hnone, _⟩ | ⟨hq, _⟩
  · exact SortedSet.not_mem_empty q hq
  · cases hnone
  · rcases List.mem_append.mp hx with hx | hx
    · exact isLeaf_iff.mp (h.bare x hx) q hq
    · exact hg.not_holds w (List.mem_singleton.mp hx ▸ hq)

/-- A leaf is one more root. -/
theorem Fronts.plant (h : f.Fronts row) (w : f.WellFormed) (hg : f.Graftable id none ∅ p) :
    (f.graft id none ∅ p).Fronts (row ++ [id]) := by
  have hroots : f.Fronts (row ++ ([] ++ [])) := by simpa using h
  simpa using Fronts.cover w hg hroots (by simp)

/-- Stored nodes with new ids are planted one after another. -/
theorem plant_of_new {batch : List Node} {level : List (String × String)}
    (h : Stacked tree row ⟨f, [], level⟩) (hroots : f.Fronts row)
    (hnd : (row ++ batch.map (·.id)).Nodup) (hstored : ∀ n ∈ batch, store.contains n.id = true)
    (room : row.length + batch.length ≤ Decimal.maxWord) :
    ∃ g, plant store f batch = .ok g ∧ Stacked tree (row ++ batch.map (·.id)) ⟨g, [], level⟩ ∧
      g.Fronts (row ++ batch.map (·.id)) := by
  induction batch generalizing f row with
  | nil => exact ⟨f, rfl, by simpa using h, by simpa using hroots⟩
  | cons n batch ih =>
      have w : f.Wired := h.wellFormed.toWired
      have hsplit : row ++ (n :: batch).map (·.id) = (row ++ [n.id]) ++ batch.map (·.id) := by simp
      have hrow : f.InRow row := by simpa using h.row
      have hnext : f.nextPosition = .ok row.length := hrow.nextPosition (by simp at room; omega)
      have hnew : f.contains n.id = false := by
        rw [← Bool.not_eq_true, ← w.mem_nodeIds, hrow.nodeIds]
        intro hin
        exact (List.nodup_append.mp hnd).2.2 _ hin _ (by simp) rfl
      obtain ⟨m, hm⟩ := NodeStore.contains_iff.mp (hstored n (by simp))
      obtain ⟨g, hins⟩ := insert_of_roots w hnew (nextPosition_free hnext) List.nodup_nil (by simp)
      obtain ⟨adopted, _, hgraft, rfl, hadopted⟩ := insert_eq_ok w hins
      have hempty : adopted = ∅ := SortedSet.ext fun q => by simp [hadopted]
      subst hempty
      rw [hsplit] at hnd ⊢
      obtain ⟨g, hplant, hg⟩ := ih (h.plant hgraft) (hroots.plant h.wellFormed hgraft) hnd
        (fun k hk => hstored k (by simp [hk]))
        (by simp at room ⊢; omega)
      refine ⟨g, ?_, hg⟩
      rw [plant, NodeStore.node_eq_ok.mpr hm, ok_bind, insert_next hnext, hins, ok_bind]
      exact hplant

/-- The ids of a level. -/
def levelIds (level : List (String × String)) : List String := level.map (·.1)

/-- A forest above a batch, with its summaries in the store beside the batch. -/
structure Over (tree : String) (batch : List Node) (store : NodeStore) (g : Grove) : Prop where
  id_eq : g.1.id = tree
  wellFormed : g.1.WellFormed
  leafIds : g.1.leafIds = batch.map (·.id)
  summarized : g.1.summary.isSome = true
  stored : ∀ x, g.1.contains x = true → g.2.contains x = true
  kept : ∀ x, store.contains x = true → g.2.contains x = true
  added : ∀ x, g.2.contains x = true → store.contains x = true ∨ ∃ k, x = summaryId tree k

/-- The summaries made for a forest enter the store. -/
theorem Stacked.settle {batch : List Node} (h : Stacked tree (batch.map (·.id)) growth)
    (hstored : ∀ n ∈ batch, store.contains n.id = true)
    (hfree : ∀ k, store.contains (summaryId tree k) = false) (summary : String) :
    ∃ after, store.add growth.made false = .ok after ∧
      Over tree batch store ({ growth.forest with summary := some summary }, after) := by
  have hmade (n : Node) (hn : n ∈ growth.made) : ∃ k, n.id = summaryId tree k := by
    have hid := List.mem_map_of_mem (f := (·.id)) hn
    rw [h.made] at hid
    obtain ⟨k, _, hk⟩ := List.mem_map.mp hid
    exact ⟨_, hk.symm⟩
  have hnd : (growth.made.map (·.id)).Nodup := by
    rw [h.made]
    refine List.nodup_range.map fun i j hij => ?_
    have hsame := summaryId_injective hij
    omega
  have hstore (x : String) : (growth.made.foldl NodeStore.put store).contains x = true ↔
      x ∈ growth.made.map (·.id) ∨ store.contains x = true := NodeStore.contains_foldl_put hnd
  refine ⟨_, NodeStore.add_of_fresh hnd fun n hn => ?_, h.id_eq, h.wellFormed.setSummary _, h.leafIds, rfl,
    fun x hx => (hstore x).mpr ?_, fun x hx => (hstore x).mpr (.inr hx), fun x hx => ?_⟩
  · obtain ⟨k, hk⟩ := hmade n hn
    rw [hk, hfree]
  · have hrow : x ∈ batch.map (·.id) ++ growth.made.map (·.id) := by
      rw [← h.row.nodeIds]
      exact h.wellFormed.mem_nodeIds.mpr hx
    rcases List.mem_append.mp hrow with hin | hin
    · obtain ⟨n, hn, rfl⟩ := List.mem_map.mp hin
      exact .inr (hstored n hn)
    · exact .inl hin
  · rcases (hstore x).mp hx with hin | hx
    · obtain ⟨n, hn, rfl⟩ := List.mem_map.mp hin
      exact .inr (hmade n hn)
    · exact .inl hx

section Build
variable (hs : ∀ texts, Gives (s.summarize texts) fun _ => True)
  (plain : ∀ x ∈ leaves, ∀ k, x ≠ summaryId tree k)
include hs plain

/-- Groups of roots are covered one after another. -/
theorem coverGroups_gives (groups : List (List (String × String))) (hfull : ∀ group ∈ groups, group ≠ [])
    (h : Stacked tree leaves growth)
    (hroots : growth.forest.Fronts (levelIds growth.level ++ levelIds groups.flatten))
    (room : leaves.length + growth.made.length + groups.length ≤ Decimal.maxWord) :
    Gives (coverGroups s tree growth groups) fun g => Stacked tree leaves g ∧
      g.forest.Fronts (levelIds g.level) ∧ g.level.length = growth.level.length + groups.length ∧
      g.made.length = growth.made.length + groups.length := by
  induction groups generalizing growth with
  | nil => exact Gives.pure ⟨h, by simpa [levelIds] using hroots, rfl, rfl⟩
  | cons group groups ih =>
      have w := h.wellFormed.toWired
      have hids : levelIds (group :: groups).flatten = levelIds group ++ levelIds groups.flatten := by
        simp [levelIds]
      rw [hids] at hroots
      have hnext : growth.forest.nextPosition = .ok (leaves.length + growth.made.length) := by
        have hlength := h.row.nextPosition (by simp at room ⊢; omega)
        simpa using hlength
      have hgroup (c : String) (hc : c ∈ levelIds group) :
          ∃ q, growth.forest.nodes.get? q = some c ∧ growth.forest.IsRoot q := by
        obtain ⟨q, hq⟩ := (hroots.2 c).mp (by simp [hc])
        exact ⟨q, ((w.roots_iff q c).mp hq).1, c, hq⟩
      have hndgroup : (levelIds group).Nodup := by
        have hnd := hroots.1
        rw [List.nodup_append, List.nodup_append] at hnd
        exact hnd.2.1.1
      obtain ⟨f, hins⟩ :=
        insert_of_roots w (h.summary_new plain rfl) (nextPosition_free hnext) hndgroup hgroup
      obtain ⟨adopted, _, hgraft, rfl, hadopted⟩ := insert_eq_ok w hins
      have hsome : ∃ q, q ∈ adopted := by
        obtain ⟨n, hn⟩ := List.exists_mem_of_ne_nil group (hfull group (by simp))
        have hc : n.1 ∈ levelIds group := List.mem_map_of_mem hn
        obtain ⟨q, hq, _⟩ := hgroup n.1 hc
        exact ⟨q, (hadopted q).mpr ⟨n.1, hc, hq⟩⟩
      have hfronts := Fronts.cover h.wellFormed hgraft hroots hadopted
      unfold coverGroups
      refine Gives.bind (hs _) fun text _ => Gives.bind_ok hnext (Gives.bind_ok hins ?_)
      refine (ih (fun l hl => hfull l (by simp [hl])) (h.cover rfl hgraft hsome text _ _)
        (by simpa [levelIds] using hfronts) (by simp at room ⊢; omega)).imp fun g hg => ?_
      obtain ⟨hstacked, hroots, hlevel, hmade⟩ := hg
      refine ⟨hstacked, hroots, ?_, ?_⟩
      · simp at hlevel ⊢
        omega
      · simp at hmade ⊢
        omega

/-- Levels are raised until one is narrow enough. -/
theorem raise_gives (hwidth : 2 ≤ width) (room : 4 * leaves.length ≤ Decimal.maxWord + 1) (fuel : Nat)
    (h : Stacked tree leaves growth) (hroots : growth.forest.Fronts (levelIds growth.level))
    (hlevel : growth.level ≠ []) (hfuel : growth.level.length ≤ fuel + 2)
    (hcount : growth.made.length + 2 * growth.level.length ≤ 3 * leaves.length) :
    Gives (raise s width tree fuel growth) fun g => Stacked tree leaves g ∧
      g.forest.Fronts (levelIds g.level) ∧ g.level ≠ [] ∧ g.level.length ≤ width := by
  induction fuel generalizing growth with
  | zero => exact Gives.pure ⟨h, hroots, hlevel, by omega⟩
  | succ fuel ih =>
      unfold raise
      split
      next hnarrow => exact Gives.pure ⟨h, hroots, hlevel, hnarrow⟩
      next hwide =>
        have hhalf := length_groups_le hwidth growth.level
        have hgroups : groups width growth.level ≠ [] := fun hnil =>
          hlevel (by rw [← flatten_groups width growth.level, hnil, List.flatten_nil])
        have hstart : Stacked tree leaves { growth with level := [] } :=
          ⟨h.id_eq, h.wellFormed, h.row, h.made, h.bare, h.covering⟩
        refine Gives.bind (coverGroups_gives hs plain _ (fun _ => ne_nil_of_mem_groups) hstart
          (by simpa [levelIds, flatten_groups] using hroots) (by simp only; omega)) fun g hg => ?_
        obtain ⟨hstacked, hfronts, hlength, hmade⟩ := hg
        have hpos := List.length_pos_iff.mpr hgroups
        simp only [List.length_nil, Nat.zero_add] at hlength hmade
        refine ih hstacked hfronts (List.length_pos_iff.mp (by omega)) (by omega) (by omega)

/-- A build over stored nodes succeeds. -/
theorem build_gives {batch : List Node} (hwidth : 2 ≤ width) (hne : batch ≠ [])
    (hbatch : leaves = batch.map (·.id)) (hnd : leaves.Nodup)
    (hstored : ∀ n ∈ batch, store.contains n.id = true)
    (hfree : ∀ k, store.contains (summaryId tree k) = false)
    (room : 4 * leaves.length ≤ Decimal.maxWord + 1) :
    Gives (build s width tree batch store) (Over tree batch store) := by
  have hlength : leaves.length = batch.length := by simp [hbatch]
  have hpos := List.length_pos_iff.mpr hne
  have hcheck : checkWidth width = .ok () := if_neg (by omega)
  let level := batch.map fun n => (n.id, n.text)
  have hlevel : levelIds level = leaves := by simp [levelIds, level, hbatch]
  have hstart : Stacked tree [] ⟨{ id := tree }, [], level⟩ :=
    ⟨rfl, wellFormed_empty tree none, by simpa using InRow.empty tree, rfl, by simp, by simp⟩
  have hnone : ({ id := tree } : Forest).Fronts [] := ⟨List.nodup_nil, fun x => by simp⟩
  obtain ⟨planted, hplant, hstacked, hfronts⟩ :=
    plant_of_new hstart hnone (by simpa [← hbatch] using hnd) hstored (by simp; omega)
  simp only [List.nil_append, ← hbatch] at hstacked hfronts
  unfold build
  refine Gives.bind_ok hcheck (Gives.bind_ok hplant ?_)
  refine Gives.bind (raise_gives hs plain hwidth room batch.length hstacked (hlevel ▸ hfronts)
    (by simpa [level] using hne) (by simp) (by simp only [List.length_map, List.length_nil]; omega))
    fun g hg => ?_
  obtain ⟨hg, _, hsome, _⟩ := hg
  have hlast : g.level.isEmpty = false := by simpa using hsome
  simp only [hlast, Bool.false_eq_true, if_false]
  refine Gives.bind (Gives.map (Q := fun summary => ∃ text, summary = some text) ((hs _).imp fun text _ =>
    ⟨text, rfl⟩)) fun summary hsummary => ?_
  obtain ⟨text, rfl⟩ := hsummary
  rw [hbatch] at hg
  obtain ⟨after, hadd, hover⟩ := hg.settle hstored hfree text
  exact Gives.bind_ok hadd (Gives.pure hover)

end Build

end Forest
end CorpusIndex
