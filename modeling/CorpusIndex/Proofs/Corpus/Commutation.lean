import CorpusIndex.Proofs.Corpus.Stranded
import CorpusIndex.Proofs.Index.Commutation

/-!
# Two documents leave a corpus in either order

A second deletion meets a smaller store. Where no other structure refers to the derived nodes of a tree,
the nodes that went are none that the second deletion looks up, so each structure loses the second document
as it would have over the first store, and there the order does not matter.
-/
namespace CorpusIndex.Corpus

/-- No other structure refers to a derived node of a tree. -/
def Unshared (c : Corpus) : Prop :=
  ∀ key f id n, c.indices.indices.get? key = some (.tree f) → f.contains id = true →
    c.store.nodes.get? id = some n → n.document = none →
      ∀ key' i, c.indices.indices.get? key' = some i → id ∈ i.nodeIds → key' = key

/-- Every structure can let a document go. -/
def Deletable (c : Corpus) : Prop :=
  ∀ key i, c.indices.indices.get? key = some i → i.Deletable c.store

/-- The node is in a tree and no longer in what deleting both documents leaves of it. -/
def DropsBoth (c : Corpus) (doc doc' id : String) : Prop :=
  ∃ key f, c.indices.indices.get? key = some (.tree f) ∧ f.contains id = true ∧
    ((f.deleteDocument doc c.store).1.deleteDocument doc' c.store).1.contains id = false

variable {c c' c₁ c₂ : Corpus} {doc doc' id key : String} {i : Index} {n : Node}
  {dropped dropped' : SortedMap String (List String)}

theorem Built.deletable (built : c.Built) (resolves : c.Resolves) : c.Deletable := by
  intro key i hi
  have hids : ∀ id ∈ i.lookedUp, id ∈ i.nodeIds := by cases i <;> simp [Index.lookedUp]
  refine ⟨fun f hf => (built.trees key f (hf ▸ hi)).wellFormed, fun id hid => ?_⟩
  exact resolves key i hi id (hids id hid)

theorem Deletable.wellFormed (h : c.Deletable) {f : Forest}
    (hf : c.indices.indices.get? key = some (.tree f)) : f.WellFormed := (h key _ hf).1 f rfl

/-- A tree drops the nodes that are no longer in it. -/
theorem treeDrops_iff (h : c.Deletable) : c.TreeDrops doc id ↔
    ∃ key f, c.indices.indices.get? key = some (.tree f) ∧ f.contains id = true ∧
      (f.deleteDocument doc c.store).1.contains id = false := by
  have hone (key : String) (f : Forest) (hf : c.indices.indices.get? key = some (.tree f)) :
      (∃ ids, (f.deleteDocument doc c.store).2 = .ok ids ∧ id ∈ ids) ↔
        f.contains id = true ∧ (f.deleteDocument doc c.store).1.contains id = false := by
    have w := h.wellFormed hf
    rw [← Bool.not_eq_true]
    rcases w.deleteDocument_without doc c.store with ⟨e, hd⟩ | ⟨g, ids, hd, hg, hids, _⟩
    · simp only [hd]
      simp
    · simp only [hd, hg.contains_iff w, Except.ok.injEq]
      constructor
      · rintro ⟨_, rfl, hid⟩
        exact ⟨(hids id hid).1, fun h => h.1 hid⟩
      · rintro ⟨hin, hout⟩
        refine ⟨ids, rfl, ?_⟩
        by_contra hid
        exact hout ⟨hid, hin⟩
  constructor
  · rintro ⟨key, f, ids, hf, hok, hid⟩
    exact ⟨key, f, hf, (hone key f hf).mp ⟨ids, hok, hid⟩⟩
  · rintro ⟨key, f, hf, hgone⟩
    obtain ⟨ids, hok, hid⟩ := (hone key f hf).mpr hgone
    exact ⟨key, f, ids, hf, hok, hid⟩

/-- What a structure still looks up after a deletion is stored as before. -/
theorem stored_deleteDocument (k : c.store.Keyed) (deletable : c.Deletable) (unshared : c.Unshared)
    (h : c.deleteDocument doc = .ok (c₁, dropped)) (hi : c₁.indices.indices.get? key = some i)
    (hid : id ∈ i.lookedUp) : c.store.nodes.get? id = c₁.store.nodes.get? id := by
  obtain ⟨hindices, hstore⟩ := deleteDocument_eq_ok k h
  obtain ⟨j, hj, rfl⟩ := (hindices key i).mp hi
  have hlooked := Index.lookedUp_deleteDocument (deletable key j hj) hid
  obtain ⟨n, hn⟩ := NodeStore.contains_iff.mp ((deletable key j hj).2 id hlooked.1)
  rw [hn]
  refine ((hstore id n).mpr ⟨hn, hlooked.2 n hn, fun hnone hdrop => ?_⟩).symm
  obtain ⟨key', f, hf, hin, hout⟩ := (treeDrops_iff deletable).mp hdrop
  have hids : id ∈ j.nodeIds := by
    cases j with
    | vectors m => simp [Index.lookedUp] at hlooked
    | _ => exact hlooked.1
  -- only the tree itself refers to the node, and what is left of that tree does not
  cases unshared key' f id n hf hin hn hnone key j hj hids
  cases hj.symm.trans hf
  have hstill : (f.deleteDocument doc c.store).1.contains id = true :=
    ((deletable key _ hf).prunes doc).wellFormed.mem_nodeIds.mp hid
  rw [hstill] at hout
  cases hout

/-- After a deletion the structures can let another document go, as they would over the first store. -/
theorem Deletable.deleteDocument (deletable : c.Deletable) (doc' : String) (k : c.store.Keyed)
    (unshared : c.Unshared) (h : c.deleteDocument doc = .ok (c₁, dropped)) : c₁.Deletable ∧
      ∀ key i, c₁.indices.indices.get? key = some i →
        (i.deleteDocument doc' c.store).1 = (i.deleteDocument doc' c₁.store).1 := by
  have hsame (key : String) (i : Index) (hi : c₁.indices.indices.get? key = some i) :
      i.Deletable c₁.store ∧ (i.deleteDocument doc' c.store).1 = (i.deleteDocument doc' c₁.store).1 := by
    obtain ⟨j, hj, rfl⟩ := ((deleteDocument_eq_ok k h).1 key i).mp hi
    exact Index.deleteDocument_congr doc' ((deletable key j hj).deleteDocument doc)
      fun id hid => stored_deleteDocument k deletable unshared h hi hid
  exact ⟨fun key i hi => (hsame key i hi).1, fun key i hi => (hsame key i hi).2⟩

section Twice
variable (k : c.store.Keyed) (deletable : c.Deletable) (unshared : c.Unshared)
  (h : c.deleteDocument doc = .ok (c₁, dropped))
include k deletable unshared h

/-- The trees after both deletions lack what the one or the other dropped. -/
theorem dropsBoth_iff :
    c.DropsBoth doc doc' id ↔ c.TreeDrops doc id ∨ c₁.TreeDrops doc' id := by
  obtain ⟨hdel, hsame⟩ := deletable.deleteDocument doc' k unshared h
  have hindices := (deleteDocument_eq_ok k h).1
  have hfirst {key : String} {f : Forest} (hf : c.indices.indices.get? key = some (.tree f)) :
      c₁.indices.indices.get? key = some (.tree (f.deleteDocument doc c.store).1) :=
    (hindices key _).mpr ⟨_, hf, rfl⟩
  have hsecond {key : String} {g : Forest} (hg : c₁.indices.indices.get? key = some (.tree g)) :
      (g.deleteDocument doc' c.store).1 = (g.deleteDocument doc' c₁.store).1 :=
    Index.tree.inj (hsame key _ hg)
  have hless {g g' : Forest} {ds : List String} {s : NodeStore} (hg : g.WellFormed)
      (hgg : g.Prunes s ds g') (hout : g.contains id = false) : g'.contains id = false := by
    rw [← Bool.not_eq_true, hg.contains_iff] at hout
    rw [← Bool.not_eq_true, hgg.wellFormed.contains_iff]
    exact fun ⟨p, hp⟩ => hout ⟨p, hgg.nodes p id hp⟩
  rw [treeDrops_iff deletable, treeDrops_iff hdel]
  constructor
  · rintro ⟨key, f, hf, hin, hout⟩
    cases hmid : (f.deleteDocument doc c.store).1.contains id with
    | false => exact .inl ⟨key, f, hf, hin, hmid⟩
    | true => exact .inr ⟨key, _, hfirst hf, hmid, hsecond (hfirst hf) ▸ hout⟩
  · rintro (⟨key, f, hf, hin, hout⟩ | ⟨key, g, hg, hin, hout⟩)
    · refine ⟨key, f, hf, hin, ?_⟩
      rw [hsecond (hfirst hf)]
      exact hless (hdel.wellFormed (hfirst hf)) ((hdel key _ (hfirst hf)).prunes doc') hout
    · obtain ⟨i, hi, hgi⟩ := (hindices key _).mp hg
      obtain ⟨f, rfl, rfl⟩ := Index.eq_tree_of_deleteDocument (deletable key i hi) hgi
      refine ⟨key, f, hi, ?_, hsecond hg ▸ hout⟩
      by_contra hno
      rw [Bool.not_eq_true] at hno
      rw [hless (deletable.wellFormed hi) ((deletable key _ hi).prunes doc) hno] at hin
      cases hin

/-- What is left after two deletions, said over the first store. -/
theorem deleteDocument_twice (h' : c₁.deleteDocument doc' = .ok (c', dropped')) :
    (∀ key j, c'.indices.indices.get? key = some j ↔ ∃ i, c.indices.indices.get? key = some i ∧
      ((i.deleteDocument doc c.store).1.deleteDocument doc' c.store).1 = j) ∧
    ∀ id n, c'.store.nodes.get? id = some n ↔ c.store.nodes.get? id = some n ∧
      n.document ≠ some doc ∧ n.document ≠ some doc' ∧
        (n.document = none → ¬ c.DropsBoth doc doc' id) := by
  obtain ⟨hindices, hstore⟩ := deleteDocument_eq_ok k h
  have k₁ : c₁.store.Keyed := k.of_subset fun id n hn => ((hstore id n).mp hn).1
  obtain ⟨hindices', hstore'⟩ := deleteDocument_eq_ok k₁ h'
  have hsame := (deletable.deleteDocument doc' k unshared h).2
  refine ⟨fun key j => ?_, fun id n => ?_⟩
  · rw [hindices']
    constructor
    · rintro ⟨i, hi, rfl⟩
      obtain ⟨i₀, hi₀, rfl⟩ := (hindices key i).mp hi
      exact ⟨i₀, hi₀, hsame key _ hi⟩
    · rintro ⟨i₀, hi₀, rfl⟩
      have hi := (hindices key _).mpr ⟨i₀, hi₀, rfl⟩
      exact ⟨_, hi, (hsame key _ hi).symm⟩
  · rw [hstore', hstore, dropsBoth_iff k deletable unshared h, not_or]
    tauto

/-- The second document can be deleted as well. -/
theorem deleteDocument_again (hne : doc ≠ doc') (hn : c.store.nodes.get? id = some n)
    (hdoc : n.document = some doc') :
    ∃ c' dropped', c₁.deleteDocument doc' = .ok (c', dropped') := by
  have hstore := (deleteDocument_eq_ok k h).2
  have hdel := (deletable.deleteDocument doc' k unshared h).1
  have k₁ : c₁.store.Keyed := k.of_subset fun id n hn => ((hstore id n).mp hn).1
  have hn₁ : c₁.store.nodes.get? id = some n := by
    refine (hstore id n).mpr ⟨hn, fun he => hne ?_, fun hnone => ?_⟩
    · exact Option.some.inj (he.symm.trans hdoc)
    · cases hdoc.symm.trans hnone
  exact deleteDocument_of_passes k₁ hn₁ hdoc fun key i hi => (hdel key i hi).outcome

end Twice

theorem dropsBoth_comm (deletable : c.Deletable) :
    c.DropsBoth doc doc' id ↔ c.DropsBoth doc' doc id := by
  refine exists_congr fun key => exists_congr fun f => and_congr_right fun hf => ?_
  have hcomm : ((f.deleteDocument doc c.store).1.deleteDocument doc' c.store).1 =
      ((f.deleteDocument doc' c.store).1.deleteDocument doc c.store).1 :=
    Index.tree.inj (Index.deleteDocument_comm (deletable key _ hf) doc doc')
  rw [hcomm]

/-- Deleting two documents that both have nodes succeeds in either order and ends in the same corpus. -/
theorem deletions_commute (built : c.Built) (resolves : c.Resolves) (unshared : c.Unshared)
    (hne : doc ≠ doc') (hdoc : ∃ id n, c.store.nodes.get? id = some n ∧ n.document = some doc)
    (hdoc' : ∃ id n, c.store.nodes.get? id = some n ∧ n.document = some doc') :
    ∃ c₁ c₂ c' dropped₁ dropped₂ dropped dropped',
      c.deleteDocument doc = .ok (c₁, dropped₁) ∧ c₁.deleteDocument doc' = .ok (c', dropped) ∧
        c.deleteDocument doc' = .ok (c₂, dropped₂) ∧ c₂.deleteDocument doc = .ok (c', dropped') := by
  have k := built.store.keyed
  have deletable := built.deletable resolves
  obtain ⟨id, n, hn, hd⟩ := hdoc
  obtain ⟨id', n', hn', hd'⟩ := hdoc'
  obtain ⟨c₁, dropped₁, h₁⟩ := deleteDocument_of_passes k hn hd
    fun key i hi => (deletable key i hi).outcome
  obtain ⟨c₂, dropped₂, h₂⟩ := deleteDocument_of_passes k hn' hd'
    fun key i hi => (deletable key i hi).outcome
  obtain ⟨c', dropped, h₁'⟩ := deleteDocument_again k deletable unshared h₁ hne hn' hd'
  obtain ⟨c'', dropped', h₂'⟩ := deleteDocument_again k deletable unshared h₂ hne.symm hn hd
  obtain ⟨hindices, hstore⟩ := deleteDocument_twice k deletable unshared h₁ h₁'
  obtain ⟨hindices', hstore'⟩ := deleteDocument_twice k deletable unshared h₂ h₂'
  have heq : c' = c'' := by
    have hs : c'.store.nodes = c''.store.nodes := by
      refine SortedMap.ext_get? fun id => Option.ext fun n => ?_
      rw [hstore, hstore', dropsBoth_comm deletable]
      tauto
    have hi : c'.indices.indices = c''.indices.indices := by
      refine SortedMap.ext_get? fun key => Option.ext fun j => ?_
      rw [hindices, hindices']
      refine exists_congr fun i => and_congr_right fun hi => ?_
      rw [Index.deleteDocument_comm (deletable key i hi)]
    obtain ⟨⟨_⟩, ⟨_⟩⟩ := c'
    obtain ⟨⟨_⟩, ⟨_⟩⟩ := c''
    cases hs
    cases hi
    rfl
  exact ⟨c₁, c₂, c', dropped₁, dropped₂, dropped, dropped', h₁, h₁', h₂, heq ▸ h₂'⟩

/-! ### A summary over two documents -/

/-- The summary `s0` above a node of `A` and a node of `B`. -/
def commonTree : Forest :=
  Forest.after { id := "t" } [.insert "a0" none [], .insert "b0" none [], .insert "s0" none ["a0", "b0"]]

/-- A list and a graph of relations refer to the nodes of `A` and `B` as well, not to the summary. -/
def commonSummary : Corpus where
  store := ⟨.ofList [("a0", { id := "a0", text := "x", document := some "A" }),
    ("b0", { id := "b0", text := "x", document := some "B" }), ("s0", { id := "s0", text := "x" })]⟩
  indices := ⟨.ofList [
    ("g", .relations (RelationGraph.upsert { id := "g" } ⟨"x", "is", "y"⟩ "a0" |>.add ["y"] "b0")),
    ("l", .list { id := "l", nodes := ["b0", "a0"] }), ("t", .tree commonTree)]⟩

theorem indices_commonSummary (h : commonSummary.indices.indices.get? key = some i) :
    (key ≠ "t" ∧ i.nodeIds.Perm ["a0", "b0"] ∧ (∀ f, i ≠ .tree f) ∧ ∀ m, i ≠ .vectors m) ∨
      (key = "t" ∧ i = .tree commonTree) := by
  have hall : commonSummary.indices.indices.toList =
      [("g", .relations (RelationGraph.upsert { id := "g" } ⟨"x", "is", "y"⟩ "a0" |>.add ["y"] "b0")),
        ("l", .list { id := "l", nodes := ["b0", "a0"] }), ("t", .tree commonTree)] := rfl
  have hi := SortedMap.get?_eq_some_iff.mp h
  rw [hall] at hi
  simp only [List.mem_cons, Prod.mk.injEq, List.not_mem_nil, or_false] at hi
  rcases hi with ⟨rfl, rfl⟩ | ⟨rfl, rfl⟩ | ⟨rfl, rfl⟩
  · exact .inl ⟨by decide, by decide, by simp, by simp⟩
  · exact .inl ⟨by decide, by decide, by simp, by simp⟩
  · exact .inr ⟨rfl, rfl⟩

theorem nodeIds_commonTree : commonTree.nodeIds = ["a0", "b0", "s0"] := rfl

theorem built_commonSummary : commonSummary.Built where
  store := by
    have hadd : ({} : NodeStore).add
        [{ id := "a0", text := "x", document := some "A" },
          { id := "b0", text := "x", document := some "B" }, { id := "s0", text := "x" }] false =
            .ok commonSummary.store := rfl
    exact .add .empty hadd
  trees key f h := by
    rcases indices_commonSummary h with ⟨_, _, hnot, _⟩ | ⟨_, hf⟩
    · exact (hnot f rfl).elim
    · cases hf
      exact ⟨"t", none, _, rfl⟩
  vectors key m h := by
    rcases indices_commonSummary h with ⟨_, _, _, hnot⟩ | ⟨_, hm⟩
    · exact (hnot m rfl).elim
    · cases hm

theorem resolves_commonSummary : commonSummary.Resolves := by
  intro key i h id hid
  have hids : id ∈ ["a0", "b0", "s0"] := by
    rcases indices_commonSummary h with ⟨_, hperm, _⟩ | ⟨_, rfl⟩
    · have := hperm.mem_iff.mp hid
      simp only [List.mem_cons, List.not_mem_nil, or_false] at this ⊢
      tauto
    · exact nodeIds_commonTree ▸ hid
  clear hid
  revert id
  decide

theorem unshared_commonSummary : commonSummary.Unshared := by
  intro key f id n hf hin hn hnone key' i hi hid
  have hkey : key = "t" := by
    rcases indices_commonSummary hf with ⟨_, _, hnot, _⟩ | ⟨h, _⟩
    · exact (hnot f rfl).elim
    · exact h
  rcases indices_commonSummary hi with ⟨_, hperm, _⟩ | ⟨h, _⟩
  · have hids := hperm.mem_iff.mp hid
    simp only [List.mem_cons, List.not_mem_nil, or_false] at hids
    rcases hids with rfl | rfl <;> cases hn <;> cases hnone
  · rw [hkey, h]

/-- Whichever document goes first, its node leaves the tree and the summary follows with the other. -/
theorem deletions_commute_commonSummary :
    ∃ c₁ c₂ c' dropped₁ dropped₂ dropped dropped',
      commonSummary.deleteDocument "A" = .ok (c₁, dropped₁) ∧
        c₁.deleteDocument "B" = .ok (c', dropped) ∧
          commonSummary.deleteDocument "B" = .ok (c₂, dropped₂) ∧
            c₂.deleteDocument "A" = .ok (c', dropped') :=
  deletions_commute built_commonSummary resolves_commonSummary unshared_commonSummary (by decide)
    ⟨"a0", _, rfl, rfl⟩ ⟨"b0", _, rfl, rfl⟩

end CorpusIndex.Corpus
