import CorpusIndex.Index

/-!
# Persisted form of index structures

A structure is an object whose `type` names its kind. Tree positions are keys of an object and are
written as decimal strings there; child positions stand in arrays as numbers.
-/
namespace CorpusIndex

open Json

/-- A map from positions, in their order, under decimal keys. -/
def positionsToJson (m : SortedMap Nat String) : Json :=
  .object (m.toList.map (fun e => (toString e.1, .string e.2)))

/-- A decimal key; any other key is reported. -/
def positionKey (key : String) : Decoded Nat :=
  match Decimal.readWhole? key.toList with
  | some p => .ok p
  | none => .error (.treePosition key)

/-- A map from positions. The whole map is read before any key is looked at, and of two keys with the
same position the later one in text order wins. -/
def positionsOfJson (j : Json) : Decoded (SortedMap Nat String) := do
  let m ← asStringMap asString j
  return .ofList (← m.toList.mapM (fun e => do return (← positionKey e.1, e.2)))

def Postings.toJson (t : Postings) : Json := SortedMap.toJson t (fun ids => Json.strings ids.elems)

def Postings.ofJson (j : Json) : Decoded Postings := asStringMap (asSet asString) j

/-- A name, or an object with the name as its only key and nothing under it. -/
def Backend.ofJson : Json → Decoded Backend
  | .string s => named s
  | .object [(s, .null)] => named s
  | .object [(s, .object [])] => named s
  | _ => malformed
where
  named (s : String) : Decoded Backend :=
    match Backend.ofName? s with
    | some b => .ok b
    | none => malformed

namespace Forest

def fields (f : Forest) : List (String × Option Json) :=
  [("index_id", some (.string f.id)),
    ("summary", f.summary.map .string),
    ("all_nodes", some (positionsToJson f.nodes)),
    ("root_nodes", some (positionsToJson f.roots)),
    ("node_id_to_index", some (SortedMap.toJson f.positions Json.ofNat)),
    ("node_id_to_children_indices",
      some (SortedMap.toJson f.children (fun below => .array (below.elems.map Json.ofNat))))]

/-- Each field is checked where it is written, so that the first fault is the one reported. -/
def checkField (name : String) (j : Json) : Decoded Unit := do
  if name = "index_id" then let _ ← asString j
  if name = "summary" then let _ ← asOption asString j
  if name = "all_nodes" ∨ name = "root_nodes" then let _ ← positionsOfJson j
  if name = "node_id_to_index" then let _ ← asStringMap asNat j
  if name = "node_id_to_children_indices" then let _ ← asStringMap (asSet asNat) j

def ofJson (j : Json) : Decoded Forest := do
  let fs ← record ["index_id", "summary", "all_nodes", "root_nodes", "node_id_to_index",
    "node_id_to_children_indices"] j checkField
  return {
    id := ← fs.required "index_id" asString
    summary := ← fs.optional "summary" none (asOption asString)
    nodes := ← fs.required "all_nodes" positionsOfJson
    roots := ← fs.required "root_nodes" positionsOfJson
    positions := ← fs.required "node_id_to_index" (asStringMap asNat)
    children := ← fs.required "node_id_to_children_indices" (asStringMap (asSet asNat)) }

end Forest

namespace KeywordTable

def fields (t : KeywordTable) : List (String × Option Json) :=
  [("index_id", some (.string t.id)),
    ("summary", t.summary.map .string),
    ("table", some t.table.toJson)]

def ofJson (j : Json) : Decoded KeywordTable := do
  let fs ← record ["index_id", "summary", "table"] j
  return {
    id := ← fs.required "index_id" asString
    summary := ← fs.optional "summary" none (asOption asString)
    table := ← fs.required "table" Postings.ofJson }

end KeywordTable

namespace NodeList

def fields (l : NodeList) : List (String × Option Json) :=
  [("index_id", some (.string l.id)),
    ("summary", l.summary.map .string),
    ("nodes", some (Json.strings l.nodes))]

def ofJson (j : Json) : Decoded NodeList := do
  let fs ← record ["index_id", "summary", "nodes"] j
  return {
    id := ← fs.required "index_id" asString
    summary := ← fs.optional "summary" none (asOption asString)
    nodes := ← fs.required "nodes" (asList asString) }

end NodeList

namespace VectorMap

def fields (m : VectorMap) : List (String × Option Json) :=
  [("index_id", some (.string m.id)),
    ("summary", m.summary.map .string),
    ("backend", some (.string m.backend.name)),
    ("nodes_dict", some (SortedMap.toJson m.nodes .string)),
    ("doc_id_dict", some (SortedMap.toJson m.documents Json.strings)),
    ("embeddings_dict",
      some (.array (m.embeddings.map (fun e => .array [.string e.1, Embedding.toJson e.2]))))]

def ofJson (j : Json) : Decoded VectorMap := do
  let fs ← record ["index_id", "summary", "backend", "nodes_dict", "doc_id_dict", "embeddings_dict"] j
  return {
    id := ← fs.required "index_id" asString
    summary := ← fs.optional "summary" none (asOption asString)
    backend := ← fs.optional "backend" .simple Backend.ofJson
    nodes := ← fs.required "nodes_dict" (asStringMap asString)
    documents := ← fs.required "doc_id_dict" (asStringMap (asList asString))
    embeddings := ← fs.optional "embeddings_dict" [] (asList (asPair asString Embedding.ofJson)) }

end VectorMap

namespace RelationGraph

def fields (g : RelationGraph) : List (String × Option Json) :=
  [("index_id", some (.string g.id)),
    ("summary", g.summary.map .string),
    ("table", some g.table.toJson),
    ("rel_map", some (SortedMap.toJson g.relations
      (fun pairs => .array (pairs.map (fun p => .array [.string p.1, .string p.2]))))),
    ("embedding_dict", some (SortedMap.toJson g.embeddings Embedding.toJson))]

def ofJson (j : Json) : Decoded RelationGraph := do
  let fs ← record ["index_id", "summary", "table", "rel_map", "embedding_dict"] j
  return {
    id := ← fs.required "index_id" asString
    summary := ← fs.optional "summary" none (asOption asString)
    table := ← fs.required "table" Postings.ofJson
    relations := ← fs.required "rel_map" (asStringMap (asList (asPair asString asString)))
    embeddings := ← fs.optional "embedding_dict" ∅ (asStringMap Embedding.ofJson) }

end RelationGraph

namespace Index

def fields : Index → List (String × Option Json)
  | .tree f => f.fields
  | .keywordTable t => t.fields
  | .list l => l.fields
  | .vectors m => m.fields
  | .relations g => g.fields

def toJson (i : Index) : Json := .present (("type", some (.string i.tag)) :: i.fields)

/-- The structure of a kind, from what is left without the tag. -/
def ofTagged (tag : String) (rest : Json) : Decoded Index :=
  match tag with
  | "tree" => .tree <$> Forest.ofJson rest
  | "keyword_table" => .keywordTable <$> KeywordTable.ofJson rest
  | "list" => .list <$> NodeList.ofJson rest
  | "vector_store" => .vectors <$> VectorMap.ofJson rest
  | "kg" => .relations <$> RelationGraph.ofJson rest
  | _ => malformed

/-- The tag may stand anywhere among the fields, once; in an array it comes first. -/
def ofJson : Json → Decoded Index
  | .object fields =>
    match fields.filter (·.1 == "type") with
    | [(_, .string tag)] => ofTagged tag (.object (fields.filter (·.1 != "type")))
    | _ => malformed
  | .array (.string tag :: rest) => ofTagged tag (.array rest)
  | _ => malformed

end Index
end CorpusIndex
