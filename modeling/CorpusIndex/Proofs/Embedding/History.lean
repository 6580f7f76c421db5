import CorpusIndex.Files
import CorpusIndex.Proofs.Embedding.Cache
import CorpusIndex.Proofs.Files

/-!
# Histories of cached embedders

Several embedders behind caches of their own share one embedder, one id and a tree of files. Batches, saves
and loads follow in any order, some of them failing. As long as only such files are loaded as were saved
before, every cache stays faithful and every saved file is that of a faithful cache. So no batch shows that
there is a cache.
-/
namespace CorpusIndex

variable {σ κ : Type}

/-- Whenever the embedder answers, it maps each of the texts in use to a finite vector, the same in every
call. -/
structure Embedder.MapsTo (e : Embedder σ) (used : Set String) (f : String → Embedding) : Prop where
  answers : ∀ texts, (∀ t ∈ texts, t ∈ used) → ∀ s vs s',
    (e.embedBatch texts).run s = (.ok vs, s') → vs = texts.map f
  finite : ∀ t ∈ used, ∀ x ∈ f t, x.isFinite = true

/-- The embedder behind the caches, the caches, and the files they are saved to. -/
structure Sharing (σ κ : Type) where
  inner : σ
  caches : κ → EmbeddingCache
  files : FileTree

namespace Sharing

def innerSlot : Slot (Sharing σ κ) σ := ⟨inner, fun t s => { s with inner := t }⟩

def cacheSlot [DecidableEq κ] (k : κ) : Slot (Sharing σ κ) EmbeddingCache :=
  ⟨fun s => s.caches k, fun c s => { s with caches := Function.update s.caches k c }⟩

/-- The embedder behind the cache `k`. -/
def cached [DecidableEq κ] (e : Embedder σ) (id : String) (k : κ) : CachedEmbedder (Sharing σ κ) :=
  ⟨⟨e.dim, fun texts => (e.embedBatch texts).within innerSlot⟩, id, cacheSlot k⟩

variable {e : Embedder σ} {id : String} {cwd : List String} {used : Set String} {f : String → Embedding}
  {places : List (List String)} {s s' : Sharing σ κ} {texts : List String} {k : κ}

/-! ### States that can be trusted -/

/-- Caches are faithful, and so are those that files were saved from. -/
structure Trusted (id : String) (used : Set String) (f : String → Embedding) (places : List (List String))
    (s : Sharing σ κ) : Prop where
  caches : ∀ k, (s.caches k).Faithful used f
  files : ∀ place ∈ places, ∃ c : EmbeddingCache,
    c.Faithful used f ∧ s.files.readText place = .ok (c.text id)

namespace Trusted

theorem start (inner : σ) (files : FileTree) :
    Trusted id used f [] (⟨inner, fun _ => {}, files⟩ : Sharing σ κ) where
  caches _ := EmbeddingCache.faithful_empty used f
  files _ h := by cases h

theorem saved {path : String} {place : List String} {files : FileTree} (h : Trusted id used f places s)
    (hplace : s.files.locate cwd path = .ok place)
    (hwritten : s.files.writeAt cwd path ((s.caches k).text id) = .ok files) :
    Trusted id used f (place :: places) { s with files } := by
  have hwrite : s.files.writeText place ((s.caches k).text id) = .ok files := by
    rw [FileTree.writeAt, hplace] at hwritten
    exact hwritten
  constructor
  · exact h.caches
  · intro other hother
    by_cases hsame : other = place
    · rw [hsame]
      exact ⟨s.caches k, h.caches k, FileTree.readText_writeText hwrite⟩
    · obtain ⟨c, hc, htext⟩ := h.files other ((List.mem_cons.mp hother).resolve_left hsame)
      exact ⟨c, hc, FileTree.readText_write_of_ne hwrite hsame htext⟩

end Trusted

variable [DecidableEq κ]

/-! ### One batch -/

/-- What is missing is asked of the embedder behind the caches, and its state is all that changes. -/
theorem inner_run {r : Except Fault (List Embedding)}
    (h : ((cached e id k).inner.embedBatch texts).run s = (r, s')) :
    (e.embedBatch texts).run s.inner = (r, s'.inner) ∧ s'.caches = s.caches ∧ s'.files = s.files := by
  cases h
  exact ⟨rfl, rfl, rfl⟩

/-- A batch that is refused was refused behind the caches, and no cache changes. -/
structure Refused (e : Embedder σ) (missing : List String) (fault : Fault) (s s' : Sharing σ κ) : Prop where
  refusal : (e.embedBatch missing).run s.inner = (.error fault, s'.inner)
  caches : s'.caches = s.caches
  files : s'.files = s.files

/-- A batch that succeeds gives each text its vector, and only the cache it went through changes. -/
structure Answered (f : String → Embedding) (used : Set String) (k : κ) (texts : List String)
    (vs : List Embedding) (s s' : Sharing σ κ) : Prop where
  vectors : vs = texts.map f
  caches : ∃ c : EmbeddingCache, c.Faithful used f ∧ s'.caches = Function.update s.caches k c
  files : s'.files = s.files

/-- A batch through a faithful cache is answered as it would be without the cache, or refused. -/
theorem embedBatch_ends (he : e.MapsTo used f) (hdigest : Set.InjOn contentDigest used)
    (hcache : (s.caches k).Faithful used f) (htexts : ∀ t ∈ texts, t ∈ used)
    {r : Except Fault (List Embedding)} (hrun : ((cached e id k).embedBatch texts).run s = (r, s')) :
    (∃ vs, r = .ok vs ∧ Answered f used k texts vs s s') ∨
      ∃ fault, r = .error fault ∧ Refused e ((cached e id k).missing s texts) fault s s' := by
  have hfill : EmbeddingCache.fill (texts.map (s.caches k).find?) (((cached e id k).missing s texts).map f) =
      texts.map f := hcache.fill_eq hdigest htexts
  have hmissing : ∀ t ∈ (cached e id k).missing s texts, t ∈ used :=
    fun t ht => htexts t (List.mem_of_mem_filter ht)
  have hend := (cached e id k).ending_embedBatch texts s
  rw [hrun] at hend
  cases hend with
  | known hnone =>
      rw [hnone] at hfill
      exact .inl ⟨_, rfl, hfill, ⟨s.caches k, hcache, (Function.update_eq_self k s.caches).symm⟩, rfl⟩
  | @filled fresh s₁ hanswer =>
      obtain ⟨hinner, hcaches, hfiles⟩ := inner_run hanswer
      have hfresh : fresh = ((cached e id k).missing s texts).map f := he.answers _ hmissing _ _ _ hinner
      have hget : (cached e id k).slot.get s₁ = s.caches k := congrFun hcaches k
      subst hfresh
      rw [hget]
      exact .inl ⟨_, rfl, hfill, ⟨_, hcache.putAll hmissing, congrArg (Function.update · k _) hcaches⟩, hfiles⟩
  | refused hrefusal =>
      obtain ⟨hinner, hcaches, hfiles⟩ := inner_run hrefusal
      exact .inr ⟨_, rfl, hinner, hcaches, hfiles⟩
  | @miscounted fresh s₁ hanswer hlength =>
      obtain ⟨hinner, _, _⟩ := inner_run hanswer
      have hfresh : fresh = ((cached e id k).missing s texts).map f := he.answers _ hmissing _ _ _ hinner
      exact absurd (by simp [hfresh]) hlength

/-! ### Whole histories -/

/-- States of a history, with the places that its saves wrote to. Only such places are loaded from. A save
or a load that fails changes nothing. -/
inductive Reached (e : Embedder σ) (id : String) (cwd : List String) (used : Set String) :
    List (List String) → Sharing σ κ → Prop
  | start (inner : σ) (files : FileTree) : Reached e id cwd used [] ⟨inner, fun _ => {}, files⟩
  | embedded {places : List (List String)} {s s' : Sharing σ κ} {k : κ} {texts : List String}
      {r : Except Fault (List Embedding)} (before : Reached e id cwd used places s)
      (known : ∀ t ∈ texts, t ∈ used) (run : ((cached e id k).embedBatch texts).run s = (r, s')) :
      Reached e id cwd used places s'
  | saved {places : List (List String)} {s : Sharing σ κ} {k : κ} {path : String} {place : List String}
      {files : FileTree} (before : Reached e id cwd used places s)
      (located : s.files.locate cwd path = .ok place)
      (written : s.files.writeAt cwd path ((s.caches k).text id) = .ok files) :
      Reached e id cwd used (place :: places) { s with files }
  | loaded {places : List (List String)} {s : Sharing σ κ} {k : κ} {path : String} {place : List String}
      {c : EmbeddingCache} {n : Nat} (before : Reached e id cwd used places s)
      (located : s.files.locate cwd path = .ok place) (known : place ∈ places)
      (taken : (s.caches k).load id e.dim path (s.files.textAt cwd path) = .ok (c, n)) :
      Reached e id cwd used places { s with caches := Function.update s.caches k c }

theorem faithful_update {caches : κ → EmbeddingCache} {c : EmbeddingCache}
    (h : ∀ i, (caches i).Faithful used f) (hc : c.Faithful used f) (i : κ) :
    (Function.update caches k c i).Faithful used f := by
  by_cases hi : i = k
  · rw [hi, Function.update_self]
    exact hc
  · rw [Function.update_of_ne hi]
    exact h i

namespace Trusted

theorem embedded (h : Trusted id used f places s) (he : e.MapsTo used f)
    (hdigest : Set.InjOn contentDigest used) (htexts : ∀ t ∈ texts, t ∈ used)
    {r : Except Fault (List Embedding)} (hrun : ((cached e id k).embedBatch texts).run s = (r, s')) :
    Trusted id used f places s' := by
  rcases embedBatch_ends he hdigest (h.caches k) htexts hrun with ⟨vs, _, hok⟩ | ⟨fault, _, hrefused⟩
  · obtain ⟨c, hc, hcaches⟩ := hok.caches
    constructor
    · rw [hcaches]
      exact faithful_update h.caches hc
    · rw [hok.files]
      exact h.files
  · constructor
    · rw [hrefused.caches]
      exact h.caches
    · rw [hrefused.files]
      exact h.files

theorem loaded {path : String} {place : List String} {c : EmbeddingCache} {n : Nat}
    (h : Trusted id used f places s) (hread : ∀ t ∈ used, ∀ x ∈ f t, Json.SingleReadsBack x)
    (hplace : s.files.locate cwd path = .ok place) (hsaved : place ∈ places)
    (htaken : (s.caches k).load id e.dim path (s.files.textAt cwd path) = .ok (c, n)) :
    Trusted id used f places { s with caches := Function.update s.caches k c } := by
  obtain ⟨written, hwritten, htext⟩ := h.files place hsaved
  have hfile : s.files.textAt cwd path = .ok (written.text id) :=
    FileTree.textAt_eq_ok.mpr ⟨place, hplace, htext⟩
  rw [hfile] at htaken
  have hc : c.Faithful used f := (h.caches k).load_text hwritten (hwritten.readable hread) htaken
  exact ⟨faithful_update h.caches hc, h.files⟩

end Trusted

theorem Reached.trusted (h : Reached e id cwd used places s) (he : e.MapsTo used f)
    (hdigest : Set.InjOn contentDigest used) (hread : ∀ t ∈ used, ∀ x ∈ f t, Json.SingleReadsBack x) :
    Trusted id used f places s := by
  induction h with
  | start inner files => exact .start inner files
  | embedded _ known run ih => exact ih.embedded he hdigest known run
  | saved _ located written ih => exact ih.saved located written
  | loaded _ located known taken ih => exact ih.loaded hread located known taken

/-- In any history of batches, saves and loads, a batch that succeeds gives the vectors the embedder has
for its texts, in their order. A batch that fails was refused behind the caches and changes none of them.
Finite numbers are taken to be read back from their texts, and digests of texts in use to differ. -/
theorem histories_embed_alike (he : e.MapsTo used f) (hdigest : Set.InjOn contentDigest used)
    (hread : ∀ t ∈ used, ∀ x ∈ f t, x.isFinite = true → Json.SingleReadsBack x)
    (h : Reached e id cwd used places s) (htexts : ∀ t ∈ texts, t ∈ used)
    {r : Except Fault (List Embedding)} (hrun : ((cached e id k).embedBatch texts).run s = (r, s')) :
    match r with
    | .ok vs => vs = texts.map f
    | .error fault => Refused e ((cached e id k).missing s texts) fault s s' := by
  have hnumbers : ∀ t ∈ used, ∀ x ∈ f t, Json.SingleReadsBack x :=
    fun t ht x hx => hread t ht x hx (he.finite t ht x hx)
  have htrusted := h.trusted he hdigest hnumbers
  rcases embedBatch_ends he hdigest (htrusted.caches k) htexts hrun with
    ⟨vs, rfl, hok⟩ | ⟨fault, rfl, hrefused⟩
  · exact hok.vectors
  · exact hrefused

/-! ### A file shared by two caches -/

def letterVector (text : String) : Embedding := if text = "a" then [0.5] else [0.25]

/-- Refuses more than two texts at a time. -/
def pairwiseLetters : Embedder Unit where
  dim := 1
  embedBatch texts := if texts.length ≤ 2 then pure (texts.map letterVector) else throw (.reported "too many")

theorem pairwiseLetters_answers (s : Unit) (h : texts.length ≤ 2) :
    (pairwiseLetters.embedBatch texts).run s = (.ok (texts.map letterVector), s) := by
  simp only [pairwiseLetters, h, if_true]
  rfl

theorem pairwiseLetters_mapsTo (used : Set String) : pairwiseLetters.MapsTo used letterVector where
  answers texts _ s vs s' h := by
    unfold pairwiseLetters at h
    dsimp only at h
    split at h
    · cases h
      rfl
    · cases h
  finite t _ x hx := by
    unfold letterVector at hx
    split at hx
    · cases List.mem_singleton.mp hx
      rfl
    · cases List.mem_singleton.mp hx
      rfl

theorem singleReadsBack_letterVector (t : String) : ∀ x ∈ letterVector t, Json.SingleReadsBack x := by
  have hhalf : Json.SingleReadsBack 0.5 := ⟨['0', '.', '5'], .real 0.5, rfl, rfl, rfl⟩
  have hquarter : Json.SingleReadsBack 0.25 := ⟨['0', '.', '2', '5'], .real 0.25, rfl, rfl, rfl⟩
  intro x hx
  unfold letterVector at hx
  split at hx
  · exact List.mem_singleton.mp hx ▸ hhalf
  · exact List.mem_singleton.mp hx ▸ hquarter

/-- The cache after a first batch of one letter. -/
def oneLetter : EmbeddingCache := ({} : EmbeddingCache).put "a" (letterVector "a")

theorem load_oneLetter (path : String) :
    ({} : EmbeddingCache).load "letters" 1 path (.ok (oneLetter.text "letters")) = .ok (oneLetter, 1) := by
  have hfaithful : oneLetter.Faithful {"a"} letterVector :=
    (EmbeddingCache.faithful_empty {"a"} letterVector).put (Set.mem_singleton "a")
  have hread : oneLetter.Readable := hfaithful.readable fun t _ => singleReadsBack_letterVector t
  have hsized : oneLetter.Sized 1 := (EmbeddingCache.sized_empty 1).put rfl
  rw [EmbeddingCache.load_text hread, EmbeddingCache.merge_saved hsized]
  rfl

/-- One cache is filled and saved, and the other one loads the file. -/
theorem reached_oneLetter : ∃ (places : List (List String)) (s : Sharing Unit Bool),
    Reached pairwiseLetters "letters" [] {"a", "b"} places s ∧ s.caches false = oneLetter := by
  let place := ["vectors.json"]
  let filled : Sharing Unit Bool := ⟨(), Function.update (fun _ => {}) true oneLetter, {}⟩
  let files : FileTree := ⟨filled.files.entries.insert place (.file (oneLetter.text "letters").toUTF8.toList)⟩
  have hrun : ((cached pairwiseLetters "letters" true).embedBatch ["a"]).run ⟨(), fun _ => {}, {}⟩ =
      (.ok [letterVector "a"], filled) := rfl
  have hlocate : filled.files.locate [] "vectors.json" = .ok place := by decide
  have hwrite : filled.files.writeText place (oneLetter.text "letters") = .ok files :=
    FileTree.write_of_free _ (by decide) (by decide)
  have hfound : files.locate [] "vectors.json" = .ok place := rfl
  have htext : files.textAt [] "vectors.json" = .ok (oneLetter.text "letters") :=
    FileTree.textAt_eq_ok.mpr ⟨place, hfound, FileTree.readText_writeText hwrite⟩
  have hfilled : Reached pairwiseLetters "letters" [] {"a", "b"} [] filled :=
    (Reached.start () {}).embedded (by simp) hrun
  have hsaved : Reached pairwiseLetters "letters" [] {"a", "b"} [place] { filled with files } := by
    apply hfilled.saved (k := true) hlocate
    have hcache : filled.caches true = oneLetter := rfl
    rw [FileTree.writeAt, hlocate, hcache]
    exact hwrite
  have hnew : filled.caches false = {} := rfl
  have hload : (filled.caches false).load "letters" 1 "vectors.json" (files.textAt [] "vectors.json") =
      .ok (oneLetter, 1) := by
    rw [htext, hnew]
    exact load_oneLetter _
  refine ⟨[place], { filled with files, caches := Function.update filled.caches false oneLetter }, ?_, ?_⟩
  · exact hsaved.loaded hfound (by simp) hload
  · exact Function.update_self false oneLetter filled.caches

theorem contentDigest_letters : Set.InjOn contentDigest {"a", "b"} := by
  have hdiffer : contentDigest "a" ≠ contentDigest "b" := by decide +kernel
  intro t ht u hu hsame
  rcases ht with rfl | rfl <;> rcases hu with rfl | rfl
  · rfl
  · exact absurd hsame hdiffer
  · exact absurd hsame.symm hdiffer
  · rfl

/-- The cache that loaded the file serves the letter it found there, twice asks for the other one, and
puts the answers in between. -/
theorem histories_embed_alike_letters : ∃ (places : List (List String)) (s s' : Sharing Unit Bool),
    Reached pairwiseLetters "letters" [] {"a", "b"} places s ∧
      ((cached pairwiseLetters "letters" false).embedBatch ["b", "a", "b"]).run s =
        (.ok [[0.25], [0.5], [0.25]], s') := by
  obtain ⟨places, s, hs, hcache⟩ := reached_oneLetter
  rcases hrun : ((cached pairwiseLetters "letters" false).embedBatch ["b", "a", "b"]).run s with ⟨r, s'⟩
  have hend := histories_embed_alike (pairwiseLetters_mapsTo _) contentDigest_letters
    (fun t _ x hx _ => singleReadsBack_letterVector t x hx) hs (by simp) hrun
  cases r with
  | ok vs =>
      have hvs : vs = [[0.25], [0.5], [0.25]] := hend
      exact ⟨places, s, s', hs, hvs ▸ hrun⟩
  | error fault =>
      -- at most two letters are missing, and so many are answered
      have hmissing : ((cached pairwiseLetters "letters" false).missing s ["b", "a", "b"]).length ≤ 2 := by
        have hfound : (s.caches false).find? "a" = some (letterVector "a") := by
          rw [hcache]
          exact SortedMap.get?_insert_self ..
        have hget : (cached pairwiseLetters "letters" false).slot.get s = s.caches false := rfl
        rw [CachedEmbedder.missing, hget]
        cases hb : (s.caches false).find? "b" <;> simp [hfound, hb]
      have hanswer := pairwiseLetters_answers s.inner hmissing
      cases hend.refusal.symm.trans hanswer

end Sharing
end CorpusIndex
