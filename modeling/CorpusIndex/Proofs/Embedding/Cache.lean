import CorpusIndex.Embedding.Cache
import CorpusIndex.Proofs.Action
import CorpusIndex.Proofs.Node.Format
import Mathlib.Data.Set.Function

/-!
# What a cache holds

A cache is faithful if every vector in it is that of some text in use, under the digest of the text. Where
no two texts in use share a digest, a faithful cache fills a batch with the vectors its texts have.
Fresh vectors keep a cache faithful, and so do the entries that a faithful cache was saved as.
-/
namespace CorpusIndex

variable {σ : Type}

/-- The texts get vectors of one dimension. -/
def ofDimension (dim : Nat) (_text : String) (v : Embedding) : Prop := v.length = dim

namespace EmbeddingCache
variable {c d : EmbeddingCache} {text : String} {texts : List String} {used : Set String}
  {f : String → Embedding} {v : Embedding} {id path : String} {dim n : Nat} {entries : List Entry}

/-! ### Vectors of texts -/

/-- Fresh vectors fill the gaps between the known ones. -/
theorem fill_answers {find : String → Option Embedding} {R : String → Embedding → Prop}
    {texts : List String} {fresh : List Embedding}
    (hknown : ∀ text ∈ texts, ∀ v, find text = some v → R text v)
    (h : List.Forall₂ R (texts.filter fun t => (find t).isNone) fresh) :
    List.Forall₂ R texts (fill (texts.map find) fresh) := by
  induction texts generalizing fresh with
  | nil => exact .nil
  | cons text texts ih =>
      obtain ⟨hhead, htail⟩ := List.forall_mem_cons.mp hknown
      cases htext : find text with
      | some v =>
          rw [List.filter_cons_of_neg (by simp [htext])] at h
          rw [List.map_cons, htext, fill]
          exact .cons (hhead v htext) (ih htail h)
      | none =>
          rw [List.filter_cons_of_pos (by simp [htext])] at h
          cases h with
          | cons hv hrest =>
              rw [List.map_cons, htext, fill]
              exact .cons hv (ih htail hrest)

/-- Every vector is that of a text in use, and is kept under the digest of the text. -/
def Faithful (c : EmbeddingCache) (used : Set String) (f : String → Embedding) : Prop :=
  ∀ digest v, c.vectors.get? digest = some v → ∃ text ∈ used, contentDigest text = digest ∧ f text = v

theorem faithful_empty (used : Set String) (f : String → Embedding) :
    ({} : EmbeddingCache).Faithful used f := fun _ _ h => by cases h

theorem Faithful.put (h : c.Faithful used f) (htext : text ∈ used) : (c.put text (f text)).Faithful used f := by
  intro digest v hv
  rcases SortedMap.get?_insert_eq_some.mp hv with ⟨hdigest, hsame⟩ | ⟨_, hv⟩
  · exact ⟨text, htext, hdigest.symm, hsame.symm⟩
  · exact h digest v hv

theorem Faithful.putAll (h : c.Faithful used f) (htexts : ∀ t ∈ texts, t ∈ used) :
    ((texts.zip (texts.map f)).foldl (fun c t => c.put t.1 t.2) c).Faithful used f := by
  induction texts generalizing c with
  | nil => exact h
  | cons text texts ih =>
      apply ih
      · exact h.put (htexts text (by simp))
      · exact fun t ht => htexts t (by simp [ht])

/-- No two texts in use share a digest, so what is found is the vector of the text itself. -/
theorem Faithful.find?_eq (h : c.Faithful used f) (hdigest : Set.InjOn contentDigest used)
    (htext : text ∈ used) (hv : c.find? text = some v) : f text = v := by
  obtain ⟨other, hother, hsame, hvalue⟩ := h _ v hv
  rw [← hdigest hother htext hsame]
  exact hvalue

/-- A batch is filled with the vectors of its texts, in their order. -/
theorem Faithful.fill_eq (h : c.Faithful used f) (hdigest : Set.InjOn contentDigest used)
    (htexts : ∀ t ∈ texts, t ∈ used) :
    fill (texts.map c.find?) ((texts.filter fun t => (c.find? t).isNone).map f) = texts.map f := by
  have hfilled : List.Forall₂ (fun t v => f t = v) texts
      (fill (texts.map c.find?) ((texts.filter fun t => (c.find? t).isNone).map f)) := by
    apply fill_answers
    · exact fun t ht v hv => h.find?_eq hdigest (htexts t ht) hv
    · exact List.forall₂_map_right_iff.mpr (List.forall₂_same.mpr fun t _ => rfl)
  rw [← List.forall₂_map_left_iff, List.forall₂_eq_eq_eq] at hfilled
  exact hfilled.symm

/-! ### Vectors of one dimension -/

/-- The cache holds vectors of this dimension only. -/
def Sized (c : EmbeddingCache) (dim : Nat) : Prop :=
  ∀ digest v, c.vectors.get? digest = some v → v.length = dim

theorem sized_empty (dim : Nat) : ({} : EmbeddingCache).Sized dim := fun _ _ h => by cases h

theorem Sized.put (h : c.Sized dim) (hv : v.length = dim) : (c.put text v).Sized dim := by
  intro digest u hu
  rcases SortedMap.get?_insert_eq_some.mp hu with ⟨_, rfl⟩ | ⟨_, hu⟩
  · exact hv
  · exact h digest u hu

theorem Sized.putAll (h : c.Sized dim) {texts : List String} {vs : List Embedding}
    (hvs : List.Forall₂ (ofDimension dim) texts vs) :
    ((texts.zip vs).foldl (fun c t => c.put t.1 t.2) c).Sized dim := by
  induction hvs generalizing c with
  | nil => exact h
  | cons hv _ ih => exact ih (h.put hv)

/-! ### Saved entries -/

/-- The entries a cache is saved as. -/
def saved (c : EmbeddingCache) (id : String) : List Entry :=
  c.vectors.toList.map fun e => ⟨e.1, id, e.2⟩

/-- Every number in the cache is read back from its text. -/
def Readable (c : EmbeddingCache) : Prop :=
  ∀ digest v, c.vectors.get? digest = some v → ∀ x ∈ v, Json.SingleReadsBack x

theorem Faithful.readable (h : c.Faithful used f)
    (hnumbers : ∀ t ∈ used, ∀ x ∈ f t, Json.SingleReadsBack x) : c.Readable := by
  intro digest v hv
  obtain ⟨text, htext, _, rfl⟩ := h digest v hv
  exact hnumbers text htext

namespace Entry
open Json

def fields (e : Entry) : List (String × Option Json) :=
  [("content_hash", some (.string e.digest)),
    ("embedder_id", some (.string e.embedder)),
    ("vector", some e.vector.toJson)]

variable {e : Entry}

theorem names_nodup (e : Entry) : (e.fields.map (·.1)).Nodup := by
  have hnames : e.fields.map (·.1) = fieldNames := rfl
  rw [hnames]
  decide

theorem legible (h : ∀ x ∈ e.vector, SingleReadsBack x) (depth : Nat) :
    Legible (depth + 2) (.ofFields fieldNames) (.present e.fields) := by
  apply Legible.present
  · exact fun name hname => field?_ofFields hname
  · exact .cons (.string e.digest) (.cons (.string e.embedder) (.cons (Embedding.legible h) .nil))

theorem ofJson_fields (h : ∀ x ∈ e.vector, SingleReadsBack x) : ofJson (.present e.fields) = .ok e := by
  have hnd := e.names_nodup
  have hrecord : record fieldNames (.present e.fields) = .ok (written e.fields) :=
    record_present hnd (fun _ h => h) fun _ _ _ => rfl
  have hdigest : Fields.required (written e.fields) "content_hash" asString = .ok e.digest :=
    required_written hnd (.string e.digest) (by simp [fields]) rfl
  have hembedder : Fields.required (written e.fields) "embedder_id" asString = .ok e.embedder :=
    required_written hnd (.string e.embedder) (by simp [fields]) rfl
  have hvector : Fields.required (written e.fields) "vector" Embedding.ofJson = .ok e.vector :=
    required_written hnd e.vector.toJson (by simp [fields]) (Embedding.ofJson_toJson h)
  unfold ofJson
  rw [hrecord]
  simp only [ok_bind, hdigest, hembedder, hvector]
  rfl

end Entry

theorem text_eq (c : EmbeddingCache) (id : String) :
    c.text id = (Json.array ((c.saved id).map fun e => .present e.fields)).compact := by
  rw [text, saved, List.map_map]
  rfl

/-- A file that a cache was saved to holds its entries. -/
theorem load_text (h : c.Readable) : d.load id dim path (.ok (c.text id)) = .ok (d.merge id dim (c.saved id)) := by
  have hnumbers : ∀ e ∈ c.saved id, ∀ x ∈ e.vector, Json.SingleReadsBack x := by
    intro e he
    obtain ⟨entry, hentry, rfl⟩ := List.mem_map.mp he
    exact h entry.1 entry.2 (SortedMap.get?_eq_some_iff.mpr hentry)
  have hlegible : Json.Legible Json.maxDepth (.list (.ofFields Entry.fieldNames))
      (.array ((c.saved id).map fun e => .present e.fields)) := by
    apply Json.Legible.array
    intro n j hj
    obtain ⟨e, he, rfl⟩ := List.mem_map.mp (List.mem_of_getElem? hj)
    exact Entry.legible (hnumbers e he) _
  have hdecode : Json.decodeText (.list (.ofFields Entry.fieldNames)) (Json.asList Entry.ofJson) (c.text id) =
      .ok (c.saved id) := by
    rw [text_eq]
    exact Json.decodeText_compact hlegible (Json.asList_map fun e he => Entry.ofJson_fields (hnumbers e he))
  simp only [load, hdecode]
  rfl

/-- Entries that are taken in are under their digests. -/
theorem get?_merge {digest : String} (h : (c.merge id dim entries).1.vectors.get? digest = some v) :
    (∃ e ∈ entries, e.digest = digest ∧ e.vector = v) ∨ c.vectors.get? digest = some v := by
  have hfold : ∀ {own : List Entry} {m : SortedMap String Embedding},
      (own.foldl (fun m e => m.insert e.digest e.vector) m).get? digest = some v →
        (∃ e ∈ own, e.digest = digest ∧ e.vector = v) ∨ m.get? digest = some v := by
    intro own m hget
    induction own generalizing m with
    | nil => exact .inr hget
    | cons e own ih =>
        rcases ih hget with ⟨a, ha, hsame⟩ | hm
        · exact .inl ⟨a, by simp [ha], hsame⟩
        · rcases SortedMap.get?_insert_eq_some.mp hm with ⟨hdigest, hvalue⟩ | ⟨_, hm⟩
          · exact .inl ⟨e, by simp, hdigest.symm, hvalue.symm⟩
          · exact .inr hm
  apply (hfold h).imp_left
  exact fun ⟨e, he, hsame⟩ => ⟨e, List.mem_of_mem_filter he, hsame⟩

/-- A new cache takes back all that a cache of its dimension was saved as. -/
theorem merge_saved (h : c.Sized dim) :
    ({} : EmbeddingCache).merge id dim (c.saved id) = (c, c.size) := by
  have hown : (c.saved id).filter (fun e => e.embedder == id && e.vector.length == dim) = c.saved id := by
    apply List.filter_eq_self.mpr
    intro e he
    obtain ⟨entry, hentry, rfl⟩ := List.mem_map.mp he
    simp [h entry.1 entry.2 (SortedMap.get?_eq_some_iff.mpr hentry)]
  have hfold : (c.saved id).foldl (fun m e => m.insert e.digest e.vector) ∅ = c.vectors := by
    rw [saved, List.foldl_map]
    exact SortedMap.ofList_toList c.vectors
  have hcount : (c.saved id).length = c.size := List.length_map ..
  simp only [merge, hown, hfold, hcount]

/-- What a faithful cache was saved as keeps a faithful cache faithful. -/
theorem Faithful.load_text (hd : d.Faithful used f) (hc : c.Faithful used f) (hread : c.Readable)
    {taken : EmbeddingCache × Nat} (h : d.load id dim path (.ok (c.text id)) = .ok taken) :
    taken.1.Faithful used f := by
  rw [EmbeddingCache.load_text hread] at h
  cases h
  intro digest v hv
  rcases get?_merge hv with ⟨e, he, rfl, rfl⟩ | hv
  · obtain ⟨entry, hentry, rfl⟩ := List.mem_map.mp he
    exact hc entry.1 entry.2 (SortedMap.get?_eq_some_iff.mpr hentry)
  · exact hd digest v hv

end EmbeddingCache

/-! ### Batches -/

namespace CachedEmbedder
variable {e : CachedEmbedder σ} {texts : List String} {fresh : List Embedding} {s s' : σ}

/-- The texts that the cache has no vector for. -/
def missing (e : CachedEmbedder σ) (s : σ) (texts : List String) : List String :=
  texts.filter fun t => ((e.slot.get s).find? t).isNone

theorem embedBatch_run_of_known (h : e.missing s texts = []) : (e.embedBatch texts).run s =
    (.ok (EmbeddingCache.fill (texts.map (e.slot.get s).find?) []), s) := by
  have hread (f : σ → Call σ (List Embedding)) : (get >>= f).run s = (f s).run s := rfl
  rw [missing] at h
  rw [embedBatch, hread]
  simp only [h, List.isEmpty_nil, if_true]
  rfl

theorem embedBatch_run_of_missing (h : e.missing s texts ≠ [])
    (hrun : (e.inner.embedBatch (e.missing s texts)).run s = (.ok fresh, s'))
    (hlength : fresh.length = (e.missing s texts).length) : (e.embedBatch texts).run s =
      (.ok (EmbeddingCache.fill (texts.map (e.slot.get s).find?) fresh),
        e.slot.set (((e.missing s texts).zip fresh).foldl (fun c t => c.put t.1 t.2) (e.slot.get s')) s') := by
  have hread (f : σ → Call σ (List Embedding)) : (get >>= f).run s = (f s).run s := rfl
  have hsome : (e.missing s texts).isEmpty = false := by simpa using h
  rw [missing] at hsome hrun hlength
  rw [embedBatch, hread]
  simp only [hsome, Bool.false_eq_true, if_false]
  rw [run_bind, hrun]
  simp only [hlength, ne_eq, not_true_eq_false, if_false]
  rfl

/-- What the embedder behind the cache refuses is refused. -/
theorem embedBatch_run_of_refused {fault : Fault} (h : e.missing s texts ≠ [])
    (hrun : (e.inner.embedBatch (e.missing s texts)).run s = (.error fault, s')) :
    (e.embedBatch texts).run s = (.error fault, s') := by
  have hread (f : σ → Call σ (List Embedding)) : (get >>= f).run s = (f s).run s := rfl
  have hsome : (e.missing s texts).isEmpty = false := by simpa using h
  rw [missing] at hsome hrun
  rw [embedBatch, hread]
  simp only [hsome, Bool.false_eq_true, if_false]
  rw [run_bind, hrun]

/-- An answer of another length than the batch is refused. -/
theorem embedBatch_run_of_miscounted (h : e.missing s texts ≠ [])
    (hrun : (e.inner.embedBatch (e.missing s texts)).run s = (.ok fresh, s'))
    (hlength : fresh.length ≠ (e.missing s texts).length) : (e.embedBatch texts).run s =
      (.error (.vectorCount fresh.length (e.missing s texts).length), s') := by
  have hread (f : σ → Call σ (List Embedding)) : (get >>= f).run s = (f s).run s := rfl
  have hsome : (e.missing s texts).isEmpty = false := by simpa using h
  rw [missing] at hsome hrun hlength ⊢
  rw [embedBatch, hread]
  simp only [hsome, Bool.false_eq_true, if_false]
  rw [run_bind, hrun]
  simp only [hlength, ne_eq, not_false_eq_true, if_true]
  rfl

/-- How a batch can end: without a call, with vectors for the texts that were missing, or in a refusal. -/
inductive Ending (e : CachedEmbedder σ) (texts : List String) (s : σ) :
    Except Fault (List Embedding) × σ → Prop
  | known (none : e.missing s texts = []) :
      Ending e texts s (.ok (EmbeddingCache.fill (texts.map (e.slot.get s).find?) []), s)
  | filled {fresh : List Embedding} {s' : σ}
      (answer : (e.inner.embedBatch (e.missing s texts)).run s = (.ok fresh, s')) :
      Ending e texts s (.ok (EmbeddingCache.fill (texts.map (e.slot.get s).find?) fresh),
        e.slot.set (((e.missing s texts).zip fresh).foldl (fun c t => c.put t.1 t.2) (e.slot.get s')) s')
  | refused {fault : Fault} {s' : σ}
      (refusal : (e.inner.embedBatch (e.missing s texts)).run s = (.error fault, s')) :
      Ending e texts s (.error fault, s')
  | miscounted {fresh : List Embedding} {s' : σ}
      (answer : (e.inner.embedBatch (e.missing s texts)).run s = (.ok fresh, s'))
      (length : fresh.length ≠ (e.missing s texts).length) :
      Ending e texts s (.error (.vectorCount fresh.length (e.missing s texts).length), s')

theorem ending_embedBatch (e : CachedEmbedder σ) (texts : List String) (s : σ) :
    e.Ending texts s ((e.embedBatch texts).run s) := by
  by_cases hnone : e.missing s texts = []
  · rw [embedBatch_run_of_known hnone]
    exact .known hnone
  · rcases hrun : (e.inner.embedBatch (e.missing s texts)).run s with ⟨fault | fresh, s'⟩
    · rw [embedBatch_run_of_refused hnone hrun]
      exact .refused hrun
    · by_cases hlength : fresh.length = (e.missing s texts).length
      · rw [embedBatch_run_of_missing hnone hrun hlength]
        exact .filled hrun
      · rw [embedBatch_run_of_miscounted hnone hrun hlength]
        exact .miscounted hrun hlength

theorem missing_of_empty (h : e.slot.get s = {}) (texts : List String) : e.missing s texts = texts := by
  rw [missing, h]
  exact List.filter_eq_self.mpr fun _ _ => rfl

end CachedEmbedder
end CorpusIndex
