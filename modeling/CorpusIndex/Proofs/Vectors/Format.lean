import CorpusIndex.Proofs.Node.Format
import CorpusIndex.VectorStore

/-!
# Stores of vectors read back

A store may fail to be read from what was written of it: a number may be none, or out of range. What is read has
the same dimension and lists the same ids under the same documents in the same order, and every vector fits the
dimension.
-/
namespace CorpusIndex

open Json

/-! ### Parts that are not misread -/

theorem Embedding.taken (v : Embedding) {depth : ℕ} : Taken False (depth + 1) .any v.toJson :=
  Taken.map fun x _ _ => taken_ofFloat32 x

theorem MetadataValue.taken (v : MetadataValue) {depth : ℕ} : Taken False depth .any v.toJson := by
  cases v with
  | bool b => exact (Legible.bool b).taken
  | int n => exact taken_ofInt n
  | real x => exact taken_ofFloat x
  | text s => exact (Legible.string s).taken

theorem Metadata.taken (m : Metadata) {depth : ℕ} : Taken False (depth + 1) .any m.toJson :=
  Taken.entries (fun k => k) fun e _ => e.2.taken

namespace VectorStore

variable {s s' : VectorStore} {e e' : VectorEntry} {path : String}

def entryParts (e : VectorEntry) : List (String × Option Json) :=
  [("id", some (.string e.id)),
    ("embedding", some e.embedding.toJson),
    ("ref_doc_id", e.document.map .string),
    ("metadata", if e.metadata.isEmpty then none else some e.metadata.toJson)]

theorem names_nodup (e : VectorEntry) : ((entryParts e).map (·.1)).Nodup := by
  have hnames : (entryParts e).map (·.1) = entryFields := rfl
  rw [hnames]
  decide

theorem taken_entry (e : VectorEntry) {depth : ℕ} :
    Taken False (depth + 2) (.ofFields entryFields) (entryToJson e) := by
  have hmetadata : AllWritten (fun _ j => Taken False (depth + 1) .any j)
      [("metadata", if e.metadata.isEmpty then none else some e.metadata.toJson)] := by
    split
    next => exact fun _ _ h => by cases List.mem_singleton.mp h
    next => exact .cons (Metadata.taken e.metadata) .nil
  refine Taken.present (fun name hname => field?_ofFields hname) ?_
  refine .cons (Legible.string e.id).taken (.cons e.embedding.taken ?_)
  exact .map (fun d _ => (Legible.string d).taken) hmetadata

theorem taken (s : VectorStore) : Taken False maxDepth shape s.toJson := by
  refine Taken.object fun f hf => ?_
  simp only [List.mem_cons, List.not_mem_nil, or_false] at hf
  rcases hf with rfl | rfl
  · exact ⟨.any, rfl, taken_ofNat s.dimension⟩
  · exact ⟨.list (.ofFields entryFields), rfl, Taken.map fun e _ _ => taken_entry e⟩

/-! ### Decoding -/

/-- The id of an entry and its document. -/
def label (e : VectorEntry) : String × Option String := (e.id, e.document)

theorem entryOfJson_eq_ok (h : entryOfJson (entryToJson e) = .ok e') : label e' = label e := by
  have hnd := names_nodup e
  have hrecord : record entryFields (entryToJson e) = .ok (written (entryParts e)) :=
    record_present hnd (fun _ h => h) fun _ _ _ => rfl
  have hid : Fields.required (written (entryParts e)) "id" asString = .ok e.id :=
    required_written hnd (.string e.id) (by simp [entryParts]) rfl
  have hdocument : Fields.optional (written (entryParts e)) "ref_doc_id" none (asOption asString) =
      .ok e.document := optional_string_written hnd (by simp [entryParts])
  unfold entryOfJson at h
  rw [hrecord] at h
  simp only [ok_bind, hid, hdocument] at h
  obtain ⟨v, _, h⟩ := bind_eq_ok.mp h
  obtain ⟨m, _, h⟩ := bind_eq_ok.mp h
  cases h
  rfl

/-- What is kept of a store in what is read of it. -/
structure Reread (s s' : VectorStore) : Prop where
  dimension : s'.dimension = s.dimension
  labels : s'.entries.map label = s.entries.map label

theorem reread_of_ofJson (h : ofJson s.toJson = .ok s') : Reread s s' := by
  have hrecord : record ["dimension", "entries"] s.toJson = .ok [("dimension", .ofNat s.dimension),
      ("entries", .array (s.entries.map entryToJson))] := rfl
  unfold ofJson at h
  rw [hrecord, ok_bind] at h
  obtain ⟨dimension, hdimension, h⟩ := bind_eq_ok.mp h
  obtain ⟨entries, hentries, h⟩ := bind_eq_ok.mp h
  cases h
  have hall : (s.entries.map entryToJson).mapM entryOfJson = .ok entries := hentries
  rw [List.mapM_map] at hall
  exact ⟨asNat_ofNat_eq_ok hdimension, map_eq_of_mapM_eq_ok (fun _ _ => entryOfJson_eq_ok) hall⟩

/-- What is loaded from what was written of a store. -/
theorem reread_of_load (h : load path (.ok s.toJson.compact) = .ok s') :
    Reread s s' ∧ ∀ e ∈ s'.entries, e.embedding.length = s'.dimension := by
  unfold load at h
  obtain ⟨text, htext, h⟩ := bind_eq_ok.mp h
  cases htext
  obtain ⟨read, hread, h⟩ := bind_eq_ok.mp h
  have hdecoded := mapError_eq_ok.mp hread
  cases hmisfit : misfit? read.dimension read.entries with
  | some f =>
      rw [hmisfit] at h
      cases h
  | none =>
      rw [hmisfit] at h
      cases h
      refine ⟨reread_of_ofJson (item_of_decodeText (taken s) .compact hdecoded), fun e he => ?_⟩
      have hnone := List.find?_eq_none.mp (Option.map_eq_none_iff.mp hmisfit) e he
      simpa using hnone

end VectorStore
end CorpusIndex
