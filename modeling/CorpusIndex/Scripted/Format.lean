import CorpusIndex.Json.Decode
import CorpusIndex.Scripted

/-!
# Written form of given answers

A reply is a text, or an object that names a failure; a failure is reported from within a call. What is
left out of a script or of the faults of an engine keeps its default.
-/
namespace CorpusIndex

open Json

namespace Script

def replyOfJson : Json → Decoded (Except Fault String)
  | .string s => .ok (.ok s)
  | j => do
    let fs ← record ["fail"] j
    return .error (.within "llm call" (.reported (← fs.required "fail" asString)))

def ofJson (j : Json) : Decoded Script := do
  let fs ← record ["replies", "cycle"] j
  return {
    replies := ← fs.optional "replies" [] (asList replyOfJson)
    cycle := ← fs.optional "cycle" false asBool }

end Script

def EngineFaults.ofJson (j : Json) : Decoded EngineFaults := do
  let fs ← record ["prefix", "same_id", "drop", "fail_add", "fail_query", "fail_delete"] j
  return {
    lead := ← fs.optional "prefix" "" asString
    sameId := ← fs.optional "same_id" none (asOption asString)
    drop := ← fs.optional "drop" 0 asNat
    failAdd := ← fs.optional "fail_add" none (asOption asString)
    failQuery := ← fs.optional "fail_query" none (asOption asString)
    failDelete := ← fs.optional "fail_delete" none (asOption asString) }

end CorpusIndex
