import CorpusIndex.Node
import CorpusIndex.Json.Decode
import CorpusIndex.Json.Printer

/-!
# Persisted form of nodes and documents

Fields come in a fixed order. An embedding, a document and an index are left out where a node has
none; metadata and links are always written.
-/
namespace CorpusIndex

open Json

def Embedding.toJson (e : Embedding) : Json := .array (e.map Json.ofFloat32)

def Embedding.ofJson (j : Json) : Decoded Embedding := asList asFloat32 j

namespace MetadataValue

def toJson : MetadataValue → Json
  | .bool b => .bool b
  | .int n => Json.ofInt n
  | .real x => Json.ofFloat x
  | .text s => .string s

/-- Whole numbers outside 64 signed bits are real numbers. -/
def ofJson : Json → Decoded MetadataValue
  | .bool b => .ok (.bool b)
  | .string s => .ok (.text s)
  | .number literal =>
    match numberValue? literal with
    | some (.whole n) => if n < Decimal.signedBound then .ok (.int n) else .ok (.real (NumberValue.whole n).toFloat)
    | some (.real x) => .ok (.real x)
    | none => malformed
  | _ => malformed

end MetadataValue

/-- A map as an object, in key order. -/
def SortedMap.toJson (m : SortedMap String α) (item : α → Json) : Json :=
  .object (m.toList.map (fun e => (e.1, item e.2)))

def Metadata.toJson (m : Metadata) : Json := SortedMap.toJson m MetadataValue.toJson

def Metadata.ofJson (j : Json) : Decoded Metadata := asStringMap MetadataValue.ofJson j

/-- Pairs of a key and the value it has to have. -/
def MetadataFilter.ofJson (j : Json) : Decoded MetadataFilter :=
  MetadataFilter.mk <$> asList (asPair asString MetadataValue.ofJson) j

def Link.ofJsonKey (s : String) : Decoded Link :=
  match Link.ofName? s with
  | some l => .ok l
  | none => malformed

namespace Node

def linksToJson (m : SortedMap Link (List String)) : Json :=
  .object (m.toList.map (fun e => (e.1.name, Json.strings e.2)))

def toJson (n : Node) : Json :=
  .present [
    ("id", some (.string n.id)),
    ("text", some (.string n.text)),
    ("embedding", n.embedding.map Embedding.toJson),
    ("metadata", some n.metadata.toJson),
    ("relationships", some (linksToJson n.links)),
    ("ref_doc_id", n.document.map .string),
    ("index_id", n.index.map .string)]

def fieldNames : List String :=
  ["id", "text", "embedding", "metadata", "relationships", "ref_doc_id", "index_id"]

def shape : Shape := .ofFields fieldNames

def ofJson (j : Json) : Decoded Node := do
  let fs ← record fieldNames j
  return {
    id := ← fs.required "id" asString
    text := ← fs.required "text" asString
    embedding := ← fs.optional "embedding" none (asOption Embedding.ofJson)
    metadata := ← fs.optional "metadata" ∅ Metadata.ofJson
    links := ← fs.optional "relationships" ∅ (asMap Link.ofJsonKey (asList asString))
    document := ← fs.optional "ref_doc_id" none (asOption asString)
    index := ← fs.optional "index_id" none (asOption asString) }

end Node

namespace Document

def toJson (d : Document) : Json :=
  .object [("id", .string d.id), ("text", .string d.text), ("metadata", d.metadata.toJson)]

def ofJson (j : Json) : Decoded Document := do
  let fs ← record ["id", "text", "metadata"] j
  return {
    id := ← fs.required "id" asString
    text := ← fs.required "text" asString
    metadata := ← fs.optional "metadata" ∅ Metadata.ofJson }

end Document
end CorpusIndex
