import CorpusIndex.Node.Format
import CorpusIndex.Proofs.Json.Decode

/-!
# Nodes read back

A node is decoded from what is written of it if its whole numbers are signed words and the texts of its
real numbers stand for them.
-/
namespace CorpusIndex

open Json

variable {depth : Nat} {e : Embedding} {v : MetadataValue} {n : Node}

/-! ### Embeddings -/

theorem Embedding.legible (h : ∀ x ∈ e, SingleReadsBack x) : Legible (depth + 1) .any e.toJson :=
  Legible.map fun x hx => legible_ofFloat32 (h x hx)

theorem Embedding.ofJson_toJson (h : ∀ x ∈ e, SingleReadsBack x) : Embedding.ofJson e.toJson = .ok e :=
  asList_map fun x hx => asFloat32_ofFloat32 (h x hx)

/-! ### Metadata -/

namespace MetadataValue

/-- The value is written so that it can be read again. -/
def Readable : MetadataValue → Prop
  | .int n => Signed n
  | .real x => DoubleReadsBack x
  | _ => True

theorem legible (h : v.Readable) : Legible depth .any v.toJson := by
  cases v with
  | bool b => exact Legible.bool b
  | int n =>
      obtain ⟨literal, hn, hliteral⟩ := numberValue?_ofInt h
      change Legible depth .any (Json.ofInt n)
      rw [hn]
      exact Legible.number hliteral
  | real x => exact legible_ofFloat h
  | text s => exact Legible.string s

/-- The kinds of values are told apart where they are read. -/
theorem ofJson_toJson (h : v.Readable) : ofJson v.toJson = .ok v := by
  cases v with
  | bool b => rfl
  | int n =>
      obtain ⟨literal, hn, hliteral⟩ := numberValue?_ofInt h
      have hbound : n < Decimal.signedBound := h.2
      simp only [toJson, hn, ofJson, hliteral, hbound, if_true]
  | real x =>
      obtain ⟨literal, value, hx, hvalue, hsame⟩ := h
      obtain ⟨y, rfl⟩ := real_of_ofFloat hx hvalue
      simp only [toJson, hx, ofJson, hvalue]
      exact congrArg (fun x => Except.ok (MetadataValue.real x)) hsame
  | text s => rfl

end MetadataValue

/-! ### Nodes -/

theorem Link.ofJsonKey_name (l : Link) : Link.ofJsonKey l.name = .ok l := by
  simp only [Link.ofJsonKey, Link.ofName?_name]

namespace Node

/-- Everything in the node is written so that it can be read again. -/
structure Readable (n : Node) : Prop where
  embedding : ∀ e, n.embedding = some e → ∀ x ∈ e, SingleReadsBack x
  metadata : ∀ key v, n.metadata.get? key = some v → v.Readable

def fields (n : Node) : List (String × Option Json) :=
  [("id", some (.string n.id)),
    ("text", some (.string n.text)),
    ("embedding", n.embedding.map Embedding.toJson),
    ("metadata", some n.metadata.toJson),
    ("relationships", some (linksToJson n.links)),
    ("ref_doc_id", n.document.map .string),
    ("index_id", n.index.map .string)]

theorem names_nodup (n : Node) : (n.fields.map (·.1)).Nodup := by
  have hnames : n.fields.map (·.1) = fieldNames := rfl
  rw [hnames]
  decide

theorem Readable.of_mem (h : n.Readable) : ∀ e ∈ n.metadata.toList, e.2.Readable :=
  fun e he => h.metadata e.1 e.2 (SortedMap.get?_eq_some_iff.mpr he)

theorem legible (h : n.Readable) : Legible (depth + 3) shape n.toJson := by
  refine Legible.present (fun name hname => field?_ofFields hname) ?_
  refine .cons (.string n.id) (.cons (.string n.text) ?_)
  refine .map (fun e he => Embedding.legible (h.embedding e he)) ?_
  refine .cons (.ofMap fun e he => MetadataValue.legible (h.of_mem e he)) ?_
  refine .cons (.entries Link.name fun e _ => .strings e.2) ?_
  exact .map (fun d _ => .string d) (.map (fun i _ => .string i) .nil)

/-- What is written of a node gives the node back. -/
theorem ofJson_toJson (h : n.Readable) : ofJson n.toJson = .ok n := by
  have hnd := n.names_nodup
  have hrecord : record fieldNames n.toJson = .ok (written n.fields) :=
    record_present hnd (fun _ h => h) fun _ _ _ => rfl
  have hid : Fields.required (written n.fields) "id" asString = .ok n.id :=
    required_written hnd (.string n.id) (by simp [fields]) rfl
  have htext : Fields.required (written n.fields) "text" asString = .ok n.text :=
    required_written hnd (.string n.text) (by simp [fields]) rfl
  have hembedding : Fields.optional (written n.fields) "embedding" none (asOption Embedding.ofJson) =
      .ok n.embedding := by
    refine optional_map_written hnd Embedding.toJson (by simp [fields]) fun e he => ?_
    change some <$> Embedding.ofJson e.toJson = _
    rw [Embedding.ofJson_toJson (h.embedding e he)]
    rfl
  have hmetadata : Fields.optional (written n.fields) "metadata" ∅ Metadata.ofJson = .ok n.metadata := by
    refine optional_written hnd n.metadata.toJson (by simp [fields]) ?_
    exact asStringMap_toJson fun e he => MetadataValue.ofJson_toJson (h.of_mem e he)
  have hlinks : Fields.optional (written n.fields) "relationships" ∅
      (asMap Link.ofJsonKey (asList asString)) = .ok n.links := by
    refine optional_written hnd (linksToJson n.links) (by simp [fields]) ?_
    exact asMap_object Link.name Link.ofJsonKey_name fun e _ => asList_strings e.2
  have hdocument : Fields.optional (written n.fields) "ref_doc_id" none (asOption asString) =
      .ok n.document := optional_string_written hnd (by simp [fields])
  have hindex : Fields.optional (written n.fields) "index_id" none (asOption asString) = .ok n.index :=
    optional_string_written hnd (by simp [fields])
  unfold ofJson
  rw [hrecord]
  simp only [ok_bind, hid, htext, hembedding, hmetadata, hlinks, hdocument, hindex]
  rfl

end Node
end CorpusIndex
