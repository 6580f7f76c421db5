import CorpusIndex.Index.Format
import CorpusIndex.Proofs.Decimal
import CorpusIndex.Proofs.Except
import CorpusIndex.Proofs.Node.Format

/-!
# Index structures read back

Every kind of structure is decoded from what is written of it. Positions have to be words, because they
stand as digits in keys and as numbers in arrays, and the texts of embeddings have to stand for them.
-/
namespace CorpusIndex

open Json

variable {depth : Nat}

/-! ### Positions and postings -/

theorem positionKey_toString {p : Nat} (h : p ≤ Decimal.maxWord) : positionKey (toString p) = .ok p := by
  have hread : Decimal.readWhole? (toString p).toList = some p :=
    toOption_eq_some.mpr (Decimal.readWhole_eq_ok_iff.mpr (Decimal.whole_toString h))
  simp only [positionKey, hread]

theorem positions_legible (m : SortedMap Nat String) : Legible (depth + 1) .any (positionsToJson m) :=
  Legible.entries (fun p => toString p) fun e _ => .string e.2

/-- Decimal keys give the positions back in their own order, not in that of their texts. -/
theorem positionsOfJson_toJson {m : SortedMap Nat String}
    (h : ∀ p id, m.get? p = some id → p ≤ Decimal.maxWord) : positionsOfJson (positionsToJson m) = .ok m := by
  let keyed := m.toList.map fun e => (toString e.1, e.2)
  let position (key : String) : Nat := (positionKey key).toOption.getD 0
  have hkey : ∀ p ∈ m.keys, positionKey (toString p) = .ok p := by
    intro p hp
    obtain ⟨id, hid⟩ := SortedMap.mem_keys.mp hp
    exact positionKey_toString (h p id hid)
  have hback : ∀ p ∈ m.keys, position (toString p) = p := by
    intro p hp
    simp only [position, hkey p hp]
    rfl
  have hread : asStringMap asString (positionsToJson m) = .ok (.ofList keyed) := by
    have hentries : positionsToJson m = .object (keyed.map fun e => (e.1, .string e.2)) := by
      rw [positionsToJson, List.map_map]
      rfl
    rw [hentries]
    exact asMap_entries (fun k => k) (fun _ _ => rfl) fun _ _ => rfl
  have hwalk : (SortedMap.ofList keyed).toList.mapM (fun e => do return (← positionKey e.1, e.2)) =
      .ok ((SortedMap.ofList keyed).toList.map fun e => (position e.1, e.2)) := by
    refine mapM_eq_ok fun e he => ?_
    obtain ⟨p, hp, hname⟩ := (SortedMap.mem_renamed hback).mp he
    have hin : p ∈ m.keys := SortedMap.mem_keys.mpr ⟨e.2, hp⟩
    rw [← hname, hback p hin, hkey p hin]
    rfl
  rw [positionsOfJson, hread, ok_bind, hwalk, ok_bind, SortedMap.ofList_renamed hback]
  rfl

namespace Postings
variable {t : Postings}

theorem legible : Legible (depth + 2) .any t.toJson := Legible.ofMap fun e _ => .strings e.2.elems

theorem ofJson_toJson : ofJson t.toJson = .ok t :=
  asStringMap_toJson fun _ _ => asSet_elems fun _ _ => rfl

end Postings

/-! ### What all kinds have -/

section Header
variable {id : String} {summary : Option String} {fs : List (String × Option Json)}

theorem id_written (hnd : ((("index_id", some (.string id)) :: ("summary", summary.map Json.string) ::
    fs).map (·.1)).Nodup) :
    Fields.required (written (("index_id", some (.string id)) :: ("summary", summary.map Json.string) :: fs))
      "index_id" asString = .ok id :=
  required_written hnd (.string id) (by simp) rfl

theorem summary_written (hnd : ((("index_id", some (.string id)) :: ("summary", summary.map Json.string) ::
    fs).map (·.1)).Nodup) :
    Fields.optional (written (("index_id", some (.string id)) :: ("summary", summary.map Json.string) :: fs))
      "summary" none (asOption asString) = .ok summary :=
  optional_string_written hnd (by simp)

theorem legible_header (h : AllWritten (fun _ j => Legible depth .any j) fs) :
    AllWritten (fun _ j => Legible depth .any j)
      (("index_id", some (.string id)) :: ("summary", summary.map Json.string) :: fs) :=
  .cons (.string id) (.map (fun s _ => .string s) h)

end Header

/-! ### The five kinds -/

namespace Forest
variable {f : Forest}

/-- The positions are words. -/
structure Readable (f : Forest) : Prop where
  nodes : ∀ p id, f.nodes.get? p = some id → p ≤ Decimal.maxWord
  roots : ∀ p id, f.roots.get? p = some id → p ≤ Decimal.maxWord
  positions : ∀ id p, f.positions.get? id = some p → p ≤ Decimal.maxWord
  children : ∀ id below, f.children.get? id = some below → ∀ p ∈ below.elems, p ≤ Decimal.maxWord

namespace Readable

theorem of_position (h : f.Readable) : ∀ e ∈ f.positions.toList, e.2 ≤ Decimal.maxWord :=
  fun e he => h.positions e.1 e.2 (SortedMap.get?_eq_some_iff.mpr he)

theorem of_child (h : f.Readable) : ∀ e ∈ f.children.toList, ∀ p ∈ e.2.elems, p ≤ Decimal.maxWord :=
  fun e he => h.children e.1 e.2 (SortedMap.get?_eq_some_iff.mpr he)

end Readable

def childrenToJson (f : Forest) : Json :=
  f.children.toJson fun below => .array (below.elems.map ofNat)

theorem names_nodup : (f.fields.map (·.1)).Nodup := by
  have hnames : f.fields.map (·.1) = ["index_id", "summary", "all_nodes", "root_nodes",
    "node_id_to_index", "node_id_to_children_indices"] := rfl
  rw [hnames]
  decide

theorem legible_fields (h : f.Readable) : AllWritten (fun _ j => Legible (depth + 2) .any j) f.fields := by
  refine legible_header (.cons (positions_legible f.nodes) (.cons (positions_legible f.roots) ?_))
  refine .cons (.ofMap fun e he => legible_ofNat (h.of_position e he)) (.cons ?_ .nil)
  exact .ofMap fun e he => .map fun p hp => legible_ofNat (h.of_child e he p hp)

theorem positions_read (h : f.Readable) : asStringMap asNat (f.positions.toJson ofNat) = .ok f.positions :=
  asStringMap_toJson fun e he => asNat_ofNat (h.of_position e he)

theorem children_read (h : f.Readable) : asStringMap (asSet asNat) f.childrenToJson = .ok f.children :=
  asStringMap_toJson fun e he => asSet_elems fun p hp => asNat_ofNat (h.of_child e he p hp)

theorem checkField_fields (h : f.Readable) :
    AllWritten (fun name j => checkField name j = .ok ()) f.fields := by
  have hnodes := positionsOfJson_toJson h.nodes
  have hroots := positionsOfJson_toJson h.roots
  have hpositions := positions_read h
  have hchildren : asStringMap (asSet asNat)
      (f.children.toJson fun below => .array (below.elems.map ofNat)) = .ok f.children := children_read h
  refine .cons rfl (.map (fun s _ => rfl) (.cons ?_ (.cons ?_ (.cons ?_ (.cons ?_ .nil)))))
  · simp only [checkField, hnodes]
    rfl
  · simp only [checkField, hroots]
    rfl
  · simp only [checkField, hpositions]
    rfl
  · simp only [checkField, hchildren]
    rfl

theorem ofJson_toJson (h : f.Readable) : ofJson (.present f.fields) = .ok f := by
  have hrecord : record ["index_id", "summary", "all_nodes", "root_nodes", "node_id_to_index",
      "node_id_to_children_indices"] (.present f.fields) checkField = .ok (written f.fields) :=
    record_present names_nodup (fun _ h => h) (checkField_fields h)
  have hid : Fields.required (written f.fields) "index_id" asString = .ok f.id := id_written names_nodup
  have hsummary : Fields.optional (written f.fields) "summary" none (asOption asString) = .ok f.summary :=
    summary_written names_nodup
  have hnodes : Fields.required (written f.fields) "all_nodes" positionsOfJson = .ok f.nodes :=
    required_written names_nodup (positionsToJson f.nodes) (by simp [fields])
      (positionsOfJson_toJson h.nodes)
  have hroots : Fields.required (written f.fields) "root_nodes" positionsOfJson = .ok f.roots :=
    required_written names_nodup (positionsToJson f.roots) (by simp [fields])
      (positionsOfJson_toJson h.roots)
  have hpositions : Fields.required (written f.fields) "node_id_to_index" (asStringMap asNat) =
      .ok f.positions :=
    required_written names_nodup (f.positions.toJson ofNat) (by simp [fields]) (positions_read h)
  have hchildren : Fields.required (written f.fields) "node_id_to_children_indices"
      (asStringMap (asSet asNat)) = .ok f.children :=
    required_written names_nodup f.childrenToJson (by simp [fields, childrenToJson]) (children_read h)
  unfold ofJson
  rw [hrecord]
  simp only [ok_bind, hid, hsummary, hnodes, hroots, hpositions, hchildren]
  rfl

end Forest

namespace NodeList
variable {l : NodeList}

theorem names_nodup : (l.fields.map (·.1)).Nodup := by
  have hnames : l.fields.map (·.1) = ["index_id", "summary", "nodes"] := rfl
  rw [hnames]
  decide

theorem legible_fields : AllWritten (fun _ j => Legible (depth + 1) .any j) l.fields :=
  legible_header (.cons (.strings l.nodes) .nil)

theorem ofJson_toJson : ofJson (.present l.fields) = .ok l := by
  have hrecord : record ["index_id", "summary", "nodes"] (.present l.fields) = .ok (written l.fields) :=
    record_present names_nodup (fun _ h => h) fun _ _ _ => rfl
  have hid : Fields.required (written l.fields) "index_id" asString = .ok l.id := id_written names_nodup
  have hsummary : Fields.optional (written l.fields) "summary" none (asOption asString) = .ok l.summary :=
    summary_written names_nodup
  have hnodes : Fields.required (written l.fields) "nodes" (asList asString) = .ok l.nodes :=
    required_written names_nodup (strings l.nodes) (by simp [fields]) (asList_strings l.nodes)
  unfold ofJson
  rw [hrecord]
  simp only [ok_bind, hid, hsummary, hnodes]
  rfl

end NodeList

namespace KeywordTable
variable {t : KeywordTable}

theorem names_nodup : (t.fields.map (·.1)).Nodup := by
  have hnames : t.fields.map (·.1) = ["index_id", "summary", "table"] := rfl
  rw [hnames]
  decide

theorem legible_fields : AllWritten (fun _ j => Legible (depth + 2) .any j) t.fields :=
  legible_header (.cons Postings.legible .nil)

theorem ofJson_toJson : ofJson (.present t.fields) = .ok t := by
  have hrecord : record ["index_id", "summary", "table"] (.present t.fields) = .ok (written t.fields) :=
    record_present names_nodup (fun _ h => h) fun _ _ _ => rfl
  have hid : Fields.required (written t.fields) "index_id" asString = .ok t.id := id_written names_nodup
  have hsummary : Fields.optional (written t.fields) "summary" none (asOption asString) = .ok t.summary :=
    summary_written names_nodup
  have htable : Fields.required (written t.fields) "table" Postings.ofJson = .ok t.table :=
    required_written names_nodup t.table.toJson (by simp [fields]) Postings.ofJson_toJson
  unfold ofJson
  rw [hrecord]
  simp only [ok_bind, hid, hsummary, htable]
  rfl

end KeywordTable

namespace VectorMap
variable {m : VectorMap}

/-- The embeddings are written so that they can be read again. -/
def Readable (m : VectorMap) : Prop := ∀ e ∈ m.embeddings, ∀ x ∈ e.2, SingleReadsBack x

theorem names_nodup : (m.fields.map (·.1)).Nodup := by
  have hnames : m.fields.map (·.1) =
    ["index_id", "summary", "backend", "nodes_dict", "doc_id_dict", "embeddings_dict"] := rfl
  rw [hnames]
  decide

theorem legible_fields (h : m.Readable) :
    AllWritten (fun _ j => Legible (depth + 3) .any j) m.fields := by
  refine legible_header (.cons (.string m.backend.name) ?_)
  refine .cons (.ofMap fun e _ => .string e.2) (.cons (.ofMap fun e _ => .strings e.2) (.cons ?_ .nil))
  refine Legible.map fun e he => Legible.list fun j hj => ?_
  rcases List.mem_cons.mp hj with rfl | hj
  · exact .string e.1
  · cases List.mem_singleton.mp hj
    exact Embedding.legible (h e he)

theorem ofJson_toJson (h : m.Readable) : ofJson (.present m.fields) = .ok m := by
  have hrecord : record ["index_id", "summary", "backend", "nodes_dict", "doc_id_dict", "embeddings_dict"]
      (.present m.fields) = .ok (written m.fields) :=
    record_present names_nodup (fun _ h => h) fun _ _ _ => rfl
  have hid : Fields.required (written m.fields) "index_id" asString = .ok m.id := id_written names_nodup
  have hsummary : Fields.optional (written m.fields) "summary" none (asOption asString) = .ok m.summary :=
    summary_written names_nodup
  have hbackend : Fields.optional (written m.fields) "backend" .simple Backend.ofJson = .ok m.backend := by
    refine optional_written names_nodup (.string m.backend.name) (by simp [fields]) ?_
    simp only [Backend.ofJson, Backend.ofJson.named, Backend.ofName?_name]
  have hnodes : Fields.required (written m.fields) "nodes_dict" (asStringMap asString) = .ok m.nodes :=
    required_written names_nodup (m.nodes.toJson .string) (by simp [fields])
      (asStringMap_toJson fun _ _ => rfl)
  have hdocuments : Fields.required (written m.fields) "doc_id_dict" (asStringMap (asList asString)) =
      .ok m.documents :=
    required_written names_nodup (m.documents.toJson strings) (by simp [fields])
      (asStringMap_toJson fun e _ => asList_strings e.2)
  have hembeddings : Fields.optional (written m.fields) "embeddings_dict" []
      (asList (asPair asString Embedding.ofJson)) = .ok m.embeddings :=
    optional_written names_nodup
      (.array (m.embeddings.map fun e => .array [.string e.1, Embedding.toJson e.2])) (by simp [fields])
      (asList_map fun e he => asPair_pair rfl (Embedding.ofJson_toJson (h e he)))
  unfold ofJson
  rw [hrecord]
  simp only [ok_bind, hid, hsummary, hbackend, hnodes, hdocuments, hembeddings]
  rfl

end VectorMap

namespace RelationGraph
variable {g : RelationGraph}

/-- The embeddings are written so that they can be read again. -/
def Readable (g : RelationGraph) : Prop :=
  ∀ text e, g.embeddings.get? text = some e → ∀ x ∈ e, SingleReadsBack x

def relationsToJson (g : RelationGraph) : Json :=
  g.relations.toJson fun pairs => .array (pairs.map fun p => .array [.string p.1, .string p.2])

theorem names_nodup : (g.fields.map (·.1)).Nodup := by
  have hnames : g.fields.map (·.1) = ["index_id", "summary", "table", "rel_map", "embedding_dict"] := rfl
  rw [hnames]
  decide

theorem Readable.of_mem (h : g.Readable) : ∀ e ∈ g.embeddings.toList, ∀ x ∈ e.2, SingleReadsBack x :=
  fun e he => h e.1 e.2 (SortedMap.get?_eq_some_iff.mpr he)

theorem legible_fields (h : g.Readable) :
    AllWritten (fun _ j => Legible (depth + 3) .any j) g.fields := by
  refine legible_header (.cons Postings.legible (.cons ?_ (.cons ?_ .nil)))
  · refine Legible.ofMap fun e _ => Legible.map fun p _ => Legible.list fun j hj => ?_
    rcases List.mem_cons.mp hj with rfl | hj
    · exact .string p.1
    · cases List.mem_singleton.mp hj
      exact .string p.2
  · exact Legible.ofMap fun e he => Embedding.legible (h.of_mem e he)

theorem ofJson_toJson (h : g.Readable) : ofJson (.present g.fields) = .ok g := by
  have hrecord : record ["index_id", "summary", "table", "rel_map", "embedding_dict"]
      (.present g.fields) = .ok (written g.fields) :=
    record_present names_nodup (fun _ h => h) fun _ _ _ => rfl
  have hid : Fields.required (written g.fields) "index_id" asString = .ok g.id := id_written names_nodup
  have hsummary : Fields.optional (written g.fields) "summary" none (asOption asString) = .ok g.summary :=
    summary_written names_nodup
  have htable : Fields.required (written g.fields) "table" Postings.ofJson = .ok g.table :=
    required_written names_nodup g.table.toJson (by simp [fields]) Postings.ofJson_toJson
  have hrelations : Fields.required (written g.fields) "rel_map"
      (asStringMap (asList (asPair asString asString))) = .ok g.relations :=
    required_written names_nodup g.relationsToJson (by simp [fields, relationsToJson])
      (asStringMap_toJson fun e _ => asList_map fun p _ => asPair_pair rfl rfl)
  have hembeddings : Fields.optional (written g.fields) "embedding_dict" ∅ (asStringMap Embedding.ofJson) =
      .ok g.embeddings :=
    optional_written names_nodup (g.embeddings.toJson Embedding.toJson) (by simp [fields])
      (asStringMap_toJson fun e he => Embedding.ofJson_toJson (h.of_mem e he))
  unfold ofJson
  rw [hrecord]
  simp only [ok_bind, hid, hsummary, htable, hrelations, hembeddings]
  rfl

end RelationGraph

/-! ### The tag of the kind -/

section Tagged
variable {fs : List (String × Option Json)} {name : String}

/-- What is found under a name that no field has. -/
theorem filter_written (h : name ∉ fs.map (·.1)) (j : Json) :
    ((name, j) :: written fs).filter (·.1 == name) = [(name, j)] ∧
      ((name, j) :: written fs).filter (·.1 != name) = written fs := by
  have hne : ∀ e ∈ written fs, e.1 ≠ name := by
    rintro e he rfl
    exact h (List.mem_map.mpr ⟨_, mem_written.mp he, rfl⟩)
  constructor
  · rw [List.filter_cons_of_pos (by simp), List.filter_eq_nil_iff.mpr (by simpa using hne)]
  · rw [List.filter_cons_of_neg (by simp), List.filter_eq_self.mpr (by simpa using hne)]

end Tagged

namespace Index
variable {i : Index}

/-- Everything in the structure is written so that it can be read again. -/
def Readable : Index → Prop
  | .tree f => f.Readable
  | .vectors m => m.Readable
  | .relations g => g.Readable
  | _ => True

theorem legible_fields (h : i.Readable) : AllWritten (fun _ j => Legible (depth + 3) .any j) i.fields := by
  cases i with
  | tree f => exact Forest.legible_fields h
  | keywordTable t => exact KeywordTable.legible_fields
  | list l => exact NodeList.legible_fields
  | vectors m => exact VectorMap.legible_fields h
  | relations g => exact RelationGraph.legible_fields h

theorem legible (h : i.Readable) : Legible (depth + 4) .any i.toJson :=
  Legible.present (fun _ _ => rfl) (.cons (.string i.tag) (legible_fields h))

/-- The tag is the name of no other field. -/
theorem type_not_mem : "type" ∉ i.fields.map (·.1) := by
  cases i with
  | tree f => simp [fields, Forest.fields]
  | keywordTable t => simp [fields, KeywordTable.fields]
  | list l => simp [fields, NodeList.fields]
  | vectors m => simp [fields, VectorMap.fields]
  | relations g => simp [fields, RelationGraph.fields]

theorem ofTagged_fields (h : i.Readable) : ofTagged i.tag (.present i.fields) = .ok i := by
  cases i with
  | tree f => exact congrArg (Index.tree <$> ·) (Forest.ofJson_toJson h)
  | keywordTable t => exact congrArg (Index.keywordTable <$> ·) KeywordTable.ofJson_toJson
  | list l => exact congrArg (Index.list <$> ·) NodeList.ofJson_toJson
  | vectors m => exact congrArg (Index.vectors <$> ·) (VectorMap.ofJson_toJson h)
  | relations g => exact congrArg (Index.relations <$> ·) (RelationGraph.ofJson_toJson h)

/-- What is written of a structure gives the structure back. -/
theorem ofJson_toJson (h : i.Readable) : ofJson i.toJson = .ok i := by
  obtain ⟨htag, hrest⟩ := filter_written (type_not_mem (i := i)) (.string i.tag)
  have hobject : i.toJson = .object (("type", .string i.tag) :: written i.fields) := rfl
  rw [hobject, ofJson]
  simp only [htag, hrest]
  exact ofTagged_fields h

end Index
end CorpusIndex
