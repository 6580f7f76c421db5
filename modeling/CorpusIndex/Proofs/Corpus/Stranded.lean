import CorpusIndex.Proofs.Corpus.Deletion

/-!
# References that outlive a deletion

A tree drops derived nodes that a deletion leaves without children, and the store drops them with it.
Another structure may still refer to such a node: it is stranded. These are the only references that
break, so a corpus is consistent after a deletion exactly where no node is stranded.
-/
namespace CorpusIndex.Corpus

/-- The store, the trees and the vector maps were made by their operations. -/
structure Built (c : Corpus) : Prop where
  store : c.store.Built
  trees : ∀ key f, c.indices.indices.get? key = some (.tree f) → f.Built
  vectors : ∀ key m, c.indices.indices.get? key = some (.vectors m) → m.Built

/-- Every id that a structure refers to is stored. -/
def Resolves (c : Corpus) : Prop :=
  ∀ key i, c.indices.indices.get? key = some i → i.Resolves c.store

/-- Vector maps list every vector for the document of its node. -/
def FiledByDocument (c : Corpus) : Prop :=
  ∀ key m, c.indices.indices.get? key = some (.vectors m) → m.FiledIn c.store

/-- A derived node that some tree drops with the document while a structure still refers to it. -/
def Stranded (c : Corpus) (doc id : String) : Prop :=
  (∃ n, c.store.nodes.get? id = some n ∧ n.document = none) ∧ c.TreeDrops doc id ∧
    ∃ key i, c.indices.indices.get? key = some i ∧ id ∈ (i.deleteDocument doc c.store).1.nodeIds

variable {c c' : Corpus} {doc id key : String} {i : Index} {dropped : SortedMap String (List String)}

theorem Built.sound (h : c.Built) (filed : c.FiledByDocument)
    (hi : c.indices.indices.get? key = some i) : i.Sound c.store := by
  cases i with
  | tree f => exact (h.trees key f hi).wellFormed
  | vectors m => exact ⟨(h.vectors key m hi).filed, filed key m hi⟩
  | keywordTable => trivial
  | list => trivial
  | relations => trivial

/-- The structures check out exactly where all their ids are stored, if each is consistent in itself. -/
theorem validate_iff (h : ∀ key i, c.indices.indices.get? key = some i → i.checkStructure = .ok ()) :
    c.validate = .ok () ↔ c.Resolves := by
  rw [validate, forM_eq_ok_iff]
  constructor
  · intro hv key i hi
    exact (Index.validate_iff (h key i hi)).mp (hv i (SortedMap.mem_values.mpr ⟨key, hi⟩))
  · intro hr i hi
    obtain ⟨key, hi⟩ := SortedMap.mem_values.mp hi
    exact (Index.validate_iff (h key i hi)).mpr (hr key i hi)

/-- After a deletion an id is missing from the store exactly if it was stranded. -/
theorem resolves_deleteDocument_iff (built : c.Built) (resolves : c.Resolves)
    (filed : c.FiledByDocument) (h : c.deleteDocument doc = .ok (c', dropped)) :
    c'.Resolves ↔ ¬ ∃ id, c.Stranded doc id := by
  obtain ⟨hindices, hstore⟩ := deleteDocument_eq_ok built.store.keyed h
  constructor
  · rintro hr ⟨id, ⟨n, hn, hnone⟩, hdrop, key, i, hi, hid⟩
    obtain ⟨m, hm⟩ := NodeStore.contains_iff.mp (hr key _ ((hindices key _).mpr ⟨i, hi, rfl⟩) id hid)
    obtain ⟨hm, _, hkeep⟩ := (hstore id m).mp hm
    cases hn.symm.trans hm
    exact hkeep hnone hdrop
  · intro hs key j hj id hid
    obtain ⟨i, hi, rfl⟩ := (hindices key j).mp hj
    have hdrops := Index.dropsFrom doc (built.sound filed hi) (resolves key i hi)
    obtain ⟨hin, hother⟩ := hdrops.subset id hid
    obtain ⟨n, hn⟩ := NodeStore.contains_iff.mp (resolves key i hi id hin)
    refine NodeStore.contains_iff.mpr ⟨n, (hstore id n).mpr ⟨hn, hother n hn, fun hnone hdrop => ?_⟩⟩
    exact hs ⟨id, ⟨n, hn, hnone⟩, hdrop, key, i, hi, hid⟩

theorem checkStructure_deleteDocument (built : c.Built) (resolves : c.Resolves)
    (filed : c.FiledByDocument) (h : c.deleteDocument doc = .ok (c', dropped))
    (hi : c'.indices.indices.get? key = some i) : i.checkStructure = .ok () := by
  obtain ⟨j, hj, rfl⟩ := ((deleteDocument_eq_ok built.store.keyed h).1 key i).mp hi
  exact (Index.dropsFrom doc (built.sound filed hj) (resolves key j hj)).consistent

/-- Texts that read back as a corpus load as that corpus exactly if it checks out. -/
theorem ofTexts_iff {store indices : String}
    (hs : Json.decodeText NodeStore.shape NodeStore.ofJson store = .ok c.store)
    (hi : Json.decodeText IndexStore.shape IndexStore.ofJson indices = .ok c.indices) :
    ofTexts (.ok store) (.ok indices) = .ok c ↔ c.validate = .ok () := by
  have heq : ofTexts (.ok store) (.ok indices) = (do c.validate; return c) := by
    simp only [ofTexts, ok_bind, hs, hi, Except.mapError]
  rw [heq, bind_eq_ok]
  exact ⟨fun ⟨_, hv, _⟩ => hv, fun hv => ⟨(), hv, rfl⟩⟩

/-- After a deletion every id still referred to is stored, every structure checks out and the files of
the corpus can be loaded again exactly if the deletion strands no node. -/
theorem deletion_consistent_iff (built : c.Built) (resolves : c.Resolves) (filed : c.FiledByDocument)
    (h : c.deleteDocument doc = .ok (c', dropped)) :
    (c'.Resolves ↔ ¬ ∃ id, c.Stranded doc id) ∧
      (c'.validate = .ok () ↔ ¬ ∃ id, c.Stranded doc id) ∧
      ∀ store indices, Json.decodeText NodeStore.shape NodeStore.ofJson store = .ok c'.store →
        Json.decodeText IndexStore.shape IndexStore.ofJson indices = .ok c'.indices →
        (ofTexts (.ok store) (.ok indices) = .ok c' ↔ ¬ ∃ id, c.Stranded doc id) := by
  have hres := resolves_deleteDocument_iff built resolves filed h
  have hval : c'.validate = .ok () ↔ ¬ ∃ id, c.Stranded doc id :=
    (validate_iff fun _ _ => checkStructure_deleteDocument built resolves filed h).trans hres
  exact ⟨hres, hval, fun store indices hs hi => (ofTexts_iff hs hi).trans hval⟩

/-! ### A summary that a list refers to -/

/-- The summary `s0` is above the only node of `A` and stands in a list as well. -/
def sharedSummary : Corpus where
  store := ⟨.ofList [("a0", { id := "a0", text := "x", document := some "A" }),
    ("s0", { id := "s0", text := "x" })]⟩
  indices := ⟨.ofList [("l", .list { id := "l", nodes := ["s0"] }),
    ("t", .tree (Forest.after { id := "t" } [.insert "a0" none [], .insert "s0" none ["a0"]]))]⟩

theorem indices_sharedSummary (h : sharedSummary.indices.indices.get? key = some i) :
    i = .list { id := "l", nodes := ["s0"] } ∨
      i = .tree (Forest.after { id := "t" } [.insert "a0" none [], .insert "s0" none ["a0"]]) := by
  have hall : sharedSummary.indices.indices.toList =
    [("l", .list { id := "l", nodes := ["s0"] }),
      ("t", .tree (Forest.after { id := "t" } [.insert "a0" none [], .insert "s0" none ["a0"]]))] := rfl
  have hi := SortedMap.get?_eq_some_iff.mp h
  rw [hall] at hi
  have hcases := (List.mem_cons.mp hi).imp (congrArg Prod.snd)
    fun h => congrArg Prod.snd (List.mem_singleton.mp h)
  simpa using hcases

theorem built_sharedSummary : sharedSummary.Built where
  store := by
    have hadd : ({} : NodeStore).add
        [{ id := "a0", text := "x", document := some "A" }, { id := "s0", text := "x" }] false =
          .ok sharedSummary.store := rfl
    exact .add .empty hadd
  trees key f h := by
    rcases indices_sharedSummary h with h | h
    · cases h
    · cases h
      exact ⟨"t", none, _, rfl⟩
  vectors key m h := by rcases indices_sharedSummary h with h | h <;> cases h

theorem resolves_sharedSummary : sharedSummary.Resolves := by
  intro key i h
  rcases indices_sharedSummary h with rfl | rfl
  · change ∀ id ∈ ["s0"], _
    decide
  · have hids : (Index.tree (Forest.after { id := "t" }
        [.insert "a0" none [], .insert "s0" none ["a0"]])).nodeIds = ["a0", "s0"] := rfl
    intro id hid
    rw [hids] at hid
    revert id
    decide

theorem filed_sharedSummary : sharedSummary.FiledByDocument := by
  intro key m h
  rcases indices_sharedSummary h with h | h <;> cases h

theorem stranded_sharedSummary : sharedSummary.Stranded "A" "s0" :=
  ⟨⟨{ id := "s0", text := "x" }, rfl, rfl⟩, ⟨"t", _, ["a0", "s0"], rfl, rfl, by decide⟩,
    "l", _, rfl, by decide⟩

/-- The list keeps `s0`, so the corpus does not check out after the deletion. -/
theorem deletion_consistent_iff_sharedSummary :
    ∃ c' dropped, sharedSummary.deleteDocument "A" = .ok (c', dropped) ∧ c'.validate ≠ .ok () := by
  refine ⟨_, _, rfl, fun hv => ?_⟩
  exact (deletion_consistent_iff built_sharedSummary resolves_sharedSummary filed_sharedSummary
    rfl).2.1.mp hv ⟨"s0", stranded_sharedSummary⟩

/-- Not every successful deletion leaves a corpus whose references resolve. -/
theorem not_every_deletion_consistent :
    ¬ ∀ (c c' : Corpus) (doc : String) (dropped : SortedMap String (List String)),
      c.Built → c.Resolves → c.FiledByDocument → c.deleteDocument doc = .ok (c', dropped) →
        c'.Resolves ∧ c'.validate = .ok () := by
  intro h
  have hv := (h sharedSummary _ "A" _ built_sharedSummary resolves_sharedSummary filed_sharedSummary rfl).2
  cases hv

end CorpusIndex.Corpus
