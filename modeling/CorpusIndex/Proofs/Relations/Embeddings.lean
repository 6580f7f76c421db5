import CorpusIndex.Proofs.Indexing.Relations
import CorpusIndex.Scripted

/-!
# Embeddings of stated facts

An insertion has the texts of all facts it found embedded in one call, and pairs the texts with the vectors
that come back. It does not count the vectors: a short answer leaves the last texts without an embedding of
their own, and the insertion succeeds all the same. So every fact gets a returned vector exactly where every
text stands among the ones that were answered (`insert_embeds_answered_facts`).
-/
namespace CorpusIndex

/-- After a run of inserts a key is bound to the last value it came with, or as before. -/
theorem SortedMap.get?_foldl_insert_pairs {ν : Type} (l : List (String × ν)) (m : SortedMap String ν)
    (k : String) :
    (l.foldl (fun m e => m.insert e.1 e.2) m).get? k = (l.reverse.lookup k).or (m.get? k) := by
  induction l using List.reverseRecOn with
  | nil => rfl
  | append_singleton l e ih =>
      rw [List.foldl_append, List.foldl_cons, List.foldl_nil, List.reverse_concat, List.lookup_cons]
      by_cases hk : k = e.1
      · rw [hk, get?_insert_self, beq_self_eq_true]
        rfl
      · rw [get?_insert_of_ne _ _ hk, ih, beq_eq_false_iff_ne.mpr hk]

namespace RelationGraph

variable {σ : Type} {g g' : RelationGraph} {found : List (String × List Triplet)} {texts : List String}
  {vs : List Embedding} {text : String} {v : Embedding}

/-! ### Facts that are found -/

/-- The facts an extractor finds in the nodes of a batch, under the ids of the nodes. -/
def extraction (x : TripletExtractor σ) (most : Nat) (batch : List Node) :
    Action σ (List (String × List Triplet)) :=
  batch.mapM fun n => do return (n.id, ← (x.triplets n.text most).external)

/-- The texts of the facts found in all nodes. -/
def foundTexts (found : List (String × List Triplet)) : List String :=
  found.flatMap (fun f => f.2.map Triplet.text)

/-- The found facts stated, each for the node it was found in. -/
def stateFound (g : RelationGraph) (found : List (String × List Triplet)) : RelationGraph :=
  found.foldl (fun g f => g.stateAll f.2 f.1) g

theorem mem_foundTexts : text ∈ foundTexts found ↔ ∃ f ∈ found, ∃ t ∈ f.2, t.text = text := by
  simp only [foundTexts, List.mem_flatMap, List.mem_map]

theorem embeddings_stateFound (g : RelationGraph) (found : List (String × List Triplet)) :
    (g.stateFound found).embeddings = g.embeddings := by
  induction found generalizing g with
  | nil => rfl
  | cons f found ih => exact (ih (g.stateAll f.2 f.1)).trans (embeddings_stateAll g f.2 f.1)

/-! ### Vectors that are returned -/

/-- The vector that was returned for a text, the last one if the text was asked for more than once. -/
def returned (texts : List String) (vs : List Embedding) (text : String) : Option Embedding :=
  (texts.zip vs).reverse.lookup text

theorem mem_zip_of_returned (h : returned texts vs text = some v) : (text, v) ∈ texts.zip vs := by
  obtain ⟨l₁, l₂, heq, _⟩ := List.lookup_eq_some_iff.mp h
  exact List.mem_reverse.mp (heq ▸ by simp)

/-- Vectors are returned for as many texts as there are vectors. -/
theorem answered_texts (texts : List String) (vs : List Embedding) :
    (texts.zip vs).map (·.1) = texts.take vs.length := by
  rw [List.zip_eq_zip_take_min, List.map_fst_zip (by simp), List.take_eq_take_iff]
  omega

theorem returned_isSome_iff : (returned texts vs text).isSome ↔ text ∈ texts.take vs.length := by
  rw [← answered_texts, returned, Option.isSome_iff_ne_none, ne_eq, List.lookup_eq_none_iff]
  simp [List.mem_map]

/-- What an insertion makes of a graph when the texts of the found facts are answered with vectors. -/
structure Embeds (g : RelationGraph) (found : List (String × List Triplet)) (vs : List Embedding)
    (g' : RelationGraph) : Prop where
  stated : g'.table = (g.stateFound found).table ∧ g'.relations = (g.stateFound found).relations
  vectors : ∀ text, g'.embeddings.get? text = (returned (foundTexts found) vs text).or (g.embeddings.get? text)
  complete_iff : (∀ f ∈ found, ∀ t ∈ f.2, ∃ v, (t.text, v) ∈ (foundTexts found).zip vs ∧
    g'.embeddings.get? t.text = some v) ↔ ∀ text ∈ foundTexts found, text ∈ (foundTexts found).take vs.length

/-- The found facts stated, and their texts paired with vectors. -/
def embedFound (g : RelationGraph) (found : List (String × List Triplet)) (vs : List Embedding) :
    RelationGraph :=
  ((foundTexts found).zip vs).foldl (fun g v => g.embed v.1 v.2) (g.stateFound found)

theorem embeds_embedFound (g : RelationGraph) (found : List (String × List Triplet))
    (vs : List Embedding) : g.Embeds found vs (g.embedFound found vs) := by
  have hvectors (text : String) : (g.embedFound found vs).embeddings.get? text =
      (returned (foundTexts found) vs text).or (g.embeddings.get? text) := by
    rw [embedFound, foldl_embed, SortedMap.get?_foldl_insert_pairs, embeddings_stateFound]
    rfl
  refine ⟨?_, hvectors, fun h text htext => ?_, fun h f hf t ht => ?_⟩
  · rw [embedFound, foldl_embed]
    exact ⟨rfl, rfl⟩
  · obtain ⟨f, hf, t, ht, rfl⟩ := mem_foundTexts.mp htext
    obtain ⟨v, hv, _⟩ := h f hf t ht
    rw [← answered_texts]
    exact List.mem_map_of_mem (f := (·.1)) hv
  · have hanswered := returned_isSome_iff.mpr (h t.text (mem_foundTexts.mpr ⟨f, hf, t, ht, rfl⟩))
    obtain ⟨v, hv⟩ := Option.isSome_iff_exists.mp hanswered
    exact ⟨v, mem_zip_of_returned hv, by rw [hvectors, hv, Option.some_or]⟩

/-! ### Insertion -/

theorem insert_eq (x : TripletExtractor σ) (most : Nat) (embedder : Option (Embedder σ))
    (g : RelationGraph) (batch : List Node) : insert x most embedder g batch = (do
      let found ← extraction x most batch
      let vectors ← embedFacts embedder (foundTexts found)
      return vectors.foldl (fun g v => g.embed v.1 v.2) (g.stateFound found)) := rfl

/-- Texts are embedded in one call, whose answer is taken as it comes. -/
theorem embedFacts_some_run (e : Embedder σ) (hne : texts ≠ []) (s : σ) :
    (embedFacts (some e) texts).run s = match (e.embedBatch texts).run s with
      | (.error f, s') => (.error (.external (.fault f)), s')
      | (.ok vs, s') => (.ok (texts.zip vs), s') := by
  have hempty : texts.isEmpty = false := by simpa using hne
  unfold embedFacts
  dsimp only
  rw [hempty, if_neg Bool.false_ne_true, run_bind, external_run]
  rcases (e.embedBatch texts).run s with ⟨r, s'⟩
  cases r <;> rfl

/-- An insertion with an embedder, in every state of its collaborators. It fails where the extractor or the
embedder does. Otherwise all found facts are stated and the vectors are paired with the texts as far as they
go, however many they are: each text has the vector returned for it, or what it had before if none was
returned. So a returned vector stands for every fact exactly if the texts beyond the answer repeat earlier
ones. -/
theorem insert_embeds_answered_facts (x : TripletExtractor σ) (most : Nat) (e : Embedder σ)
    (g : RelationGraph) (batch : List Node) (s : σ) :
    match (extraction x most batch).run s with
    | (.error f, s₁) => (insert x most (some e) g batch).run s = (.error f, s₁)
    | (.ok found, s₁) =>
      if foundTexts found = [] then (insert x most (some e) g batch).run s = (.ok (g.stateFound found), s₁)
      else match (e.embedBatch (foundTexts found)).run s₁ with
        | (.error f, s₂) => (insert x most (some e) g batch).run s = (.error (.external (.fault f)), s₂)
        | (.ok vs, s₂) => ∃ g', (insert x most (some e) g batch).run s = (.ok g', s₂) ∧ g.Embeds found vs g' := by
  rw [insert_eq, run_bind]
  rcases hfound : (extraction x most batch).run s with ⟨r, s₁⟩
  cases r with
  | error f => rfl
  | ok found =>
      dsimp only
      split
      next hnone =>
        rw [run_bind, hnone]
        rfl
      next hsome =>
        rw [run_bind, embedFacts_some_run e hsome]
        rcases (e.embedBatch (foundTexts found)).run s₁ with ⟨r, s₂⟩
        cases r with
        | error f => rfl
        | ok vs => exact ⟨g.embedFound found vs, rfl, embeds_embedFound g found vs⟩

/-! ### An embedder that loses a vector -/

def knowsBob : Triplet := ⟨"alice", "knows", "bob"⟩

def likesTea : Triplet := ⟨"bob", "likes", "tea"⟩

/-- Finds two facts in every text. -/
def twoFacts : TripletExtractor Unit := ⟨fun _ _ => pure [knowsBob, likesTea]⟩

/-- Embeds every text, and loses the last vector. -/
def losing : Embedder Unit := Embedder.withoutLast ⟨1, fun texts => pure (texts.map fun _ => [1])⟩ 1

/-- One vector comes back for two texts, and still the insertion succeeds: both facts are listed, and the
second one has no embedding. -/
theorem insertion_takes_short_answer :
    (losing.embedBatch [knowsBob.text, likesTea.text]).run () = (.ok [[1]], ()) ∧
    ∃ g', (insert twoFacts 5 (some losing) { id := "kg" } [{ id := "n", text := "" }]).run () = (.ok g', ()) ∧
      g'.Lists likesTea ∧ g'.embeddings.get? knowsBob.text = some [1] ∧
      g'.embeddings.get? likesTea.text = none := by
  refine ⟨rfl, _, rfl, ?_, rfl, rfl⟩
  unfold Lists
  decide

end RelationGraph
end CorpusIndex
