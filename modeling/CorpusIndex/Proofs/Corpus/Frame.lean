import CorpusIndex.Proofs.Corpus.Commutation
import CorpusIndex.Proofs.Index.Frame

/-!
# Other documents after a deletion

A deletion runs through every structure and then through the store, where the derived nodes that trees
dropped go too. What belongs to another document is not touched on the way: its nodes stay as they are
stored, and every structure refers to them as before.
-/
namespace CorpusIndex.Corpus

variable {c c' : Corpus} {doc id key : String} {i : Index} {f : Forest} {m : VectorMap}
  {dropped : SortedMap String (List String)}

/-- A deletion leaves the nodes of other documents in the store unchanged, and each structure goes on
referring to them in the same way. No node of the document is left in the store or in a structure. -/
theorem deletion_leaves_other_documents (built : c.Built) (resolves : c.Resolves)
    (filed : c.FiledByDocument) (h : c.deleteDocument doc = .ok (c', dropped)) :
    (∀ id n d, c.store.nodes.get? id = some n → n.document = some d → d ≠ doc →
      c'.store.nodes.get? id = some n) ∧
    (∀ id n, c'.store.nodes.get? id = some n → c.store.nodes.get? id = some n ∧ n.document ≠ some doc) ∧
    (∀ key, (∃ i, c.indices.indices.get? key = some i) ↔ ∃ j, c'.indices.indices.get? key = some j) ∧
    ∀ key i j, c.indices.indices.get? key = some i → c'.indices.indices.get? key = some j →
      i.SameFor (c.store.elsewhere doc) j ∧
      (∀ id, c.store.elsewhere doc id = true → (id ∈ j.nodeIds ↔ id ∈ i.nodeIds)) ∧
      ∀ id ∈ j.nodeIds, c.store.owns doc id = false := by
  obtain ⟨hindices, hstore⟩ := deleteDocument_eq_ok built.store.keyed h
  refine ⟨fun id n d hn hd hne => ?_, fun id n hn => ?_, fun key => ?_, fun key i j hi hj => ?_⟩
  · refine (hstore id n).mpr ⟨hn, ?_, ?_⟩
    · rw [hd]
      exact fun heq => hne (Option.some.inj heq)
    · intro hnone
      cases hd.symm.trans hnone
  · obtain ⟨hn, hdoc, _⟩ := (hstore id n).mp hn
    exact ⟨hn, hdoc⟩
  · constructor
    · rintro ⟨i, hi⟩
      exact ⟨_, (hindices key _).mpr ⟨i, hi, rfl⟩⟩
    · rintro ⟨j, hj⟩
      obtain ⟨i, hi, _⟩ := (hindices key j).mp hj
      exact ⟨i, hi⟩
  · obtain ⟨i', hi', rfl⟩ := (hindices key j).mp hj
    cases hi.symm.trans hi'
    have hsound := built.sound filed hi
    have hsame := Index.sameFor_deleteDocument doc hsound (resolves key i hi)
    refine ⟨hsame, fun id hid => hsame.mem_nodeIds hid, fun id hid => ?_⟩
    rw [← Bool.not_eq_true, NodeStore.owns_iff]
    rintro ⟨n, hn, hdoc⟩
    exact ((Index.dropsFrom doc hsound (resolves key i hi)).subset id hid).2 n hn hdoc

/-! ### Two documents that share everything -/

/-- Both documents state one fact. -/
def commonFact : RelationGraph :=
  RelationGraph.upsert (RelationGraph.upsert { id := "g" } ⟨"x", "is", "y"⟩ "a0") ⟨"x", "is", "y"⟩ "b0"

/-- Both documents have one keyword. -/
def commonWord : KeywordTable := KeywordTable.add (KeywordTable.add { id := "k" } ["x"] "a0") ["x"] "b0"

/-- The vector of `B` stands between two of `A`. -/
def mixedVectors : VectorMap :=
  VectorMap.after { id := "v" } [.add { id := "a0", text := "x", document := some "A" } none,
    .add { id := "b0", text := "x", document := some "B" } none,
    .add { id := "a0", text := "x", document := some "A" } (some "w"),
    .embed "w" [0], .embed "b0" [1], .embed "a0" [0]]

/-- The documents share a summary, a keyword and a fact. -/
def sharedThroughout : Corpus where
  store := ⟨.ofList [("a0", { id := "a0", text := "x", document := some "A" }),
    ("b0", { id := "b0", text := "x", document := some "B" }), ("s0", { id := "s0", text := "x" })]⟩
  indices := ⟨.ofList [("g", .relations commonFact), ("k", .keywordTable commonWord),
    ("l", .list { id := "l", nodes := ["b0", "a0"] }), ("t", .tree commonTree),
    ("v", .vectors mixedVectors)]⟩

theorem indices_sharedThroughout (h : sharedThroughout.indices.indices.get? key = some i) :
    i = .relations commonFact ∨ i = .keywordTable commonWord ∨
      i = .list { id := "l", nodes := ["b0", "a0"] } ∨ i = .tree commonTree ∨ i = .vectors mixedVectors := by
  have hall : sharedThroughout.indices.indices.toList =
      [("g", .relations commonFact), ("k", .keywordTable commonWord),
        ("l", .list { id := "l", nodes := ["b0", "a0"] }), ("t", .tree commonTree),
        ("v", .vectors mixedVectors)] := rfl
  have hi := SortedMap.get?_eq_some_iff.mp h
  rw [hall] at hi
  simp only [List.mem_cons, Prod.mk.injEq, List.not_mem_nil, or_false] at hi
  tauto

theorem built_sharedThroughout : sharedThroughout.Built where
  store := built_commonSummary.store
  trees key f h := by
    rcases indices_sharedThroughout h with h | h | h | h | h <;> cases h
    exact ⟨"t", none, _, rfl⟩
  vectors key m h := by
    rcases indices_sharedThroughout h with h | h | h | h | h <;> cases h
    exact (VectorMap.Built.empty "v" none .simple).after _

theorem resolves_sharedThroughout : sharedThroughout.Resolves := by
  intro key i h
  have hids : ∀ id ∈ i.nodeIds, id ∈ ["a0", "b0", "s0"] := by
    rcases indices_sharedThroughout h with rfl | rfl | rfl | rfl | rfl <;> decide
  have hstored : ∀ id ∈ ["a0", "b0", "s0"], sharedThroughout.store.contains id = true := by decide
  exact fun id hid => hstored id (hids id hid)

theorem lists_mixedVectors {v : String} : mixedVectors.Lists doc v ↔
    (doc = "A" ∧ (v = "a0" ∨ v = "w")) ∨ (doc = "B" ∧ v = "b0") := by
  have hall : mixedVectors.documents.toList = [("A", ["a0", "w"]), ("B", ["b0"])] := rfl
  have hget (vs : List String) : mixedVectors.documents.get? doc = some vs ↔
      (doc = "A" ∧ vs = ["a0", "w"]) ∨ (doc = "B" ∧ vs = ["b0"]) := by
    rw [SortedMap.get?_eq_some_iff, hall]
    simp
  constructor
  · intro h
    cases hvs : mixedVectors.documents.get? doc with
    | none => simp [VectorMap.Lists, SortedMap.getD_eq, hvs] at h
    | some vs =>
        rw [VectorMap.Lists, SortedMap.getD_eq, hvs] at h
        rcases (hget vs).mp hvs with ⟨rfl, rfl⟩ | ⟨rfl, rfl⟩
        · exact .inl ⟨rfl, by simpa using h⟩
        · exact .inr ⟨rfl, by simpa using h⟩
  · unfold VectorMap.Lists
    rintro (⟨rfl, rfl | rfl⟩ | ⟨rfl, rfl⟩) <;> decide

theorem filed_sharedThroughout : sharedThroughout.FiledByDocument := by
  intro key m h
  rcases indices_sharedThroughout h with h | h | h | h | h <;> cases h
  intro v id n hv hn doc
  have hmem : (v, id) ∈ [("a0", "a0"), ("b0", "b0"), ("w", "a0")] := SortedMap.get?_eq_some_iff.mp hv
  simp only [List.mem_cons, Prod.mk.injEq, List.not_mem_nil, or_false] at hmem
  rw [lists_mixedVectors]
  rcases hmem with ⟨rfl, rfl⟩ | ⟨rfl, rfl⟩ | ⟨rfl, rfl⟩ <;> cases hn <;> simp [eq_comm]

/-- The summary, the keyword and the fact stay for the node of `B`, and its vector keeps its embedding. -/
theorem deletion_leaves_other_documents_sharedThroughout :
    ∃ c' dropped, sharedThroughout.deleteDocument "A" = .ok (c', dropped) ∧
      c'.store.nodes.get? "b0" = some { id := "b0", text := "x", document := some "B" } ∧
      ∀ key i j, sharedThroughout.indices.indices.get? key = some i → c'.indices.indices.get? key = some j →
        i.SameFor (sharedThroughout.store.elsewhere "A") j ∧ ("b0" ∈ j.nodeIds ↔ "b0" ∈ i.nodeIds) ∧
          "a0" ∉ j.nodeIds := by
  obtain ⟨c', dropped, hdel⟩ : ∃ c' dropped, sharedThroughout.deleteDocument "A" = .ok (c', dropped) :=
    ⟨_, _, rfl⟩
  obtain ⟨hstays, _, _, hsame⟩ := deletion_leaves_other_documents built_sharedThroughout
    resolves_sharedThroughout filed_sharedThroughout hdel
  refine ⟨c', dropped, hdel, hstays "b0" _ "B" rfl rfl (by decide), fun key i j hi hj => ?_⟩
  obtain ⟨h, hids, hnone⟩ := hsame key i j hi hj
  refine ⟨h, hids "b0" (by decide), fun hin => ?_⟩
  cases (by decide : sharedThroughout.store.owns "A" "a0" = true).symm.trans (hnone "a0" hin)

end CorpusIndex.Corpus
