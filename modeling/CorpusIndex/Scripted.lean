import CorpusIndex.Collaborator

/-!
# Collaborators with given answers

A language model that answers from a script, an embedder that reads a table, and engines that refuse
calls, rename entries or lose ids. They need nothing from outside, and show what the library does when
a collaborator fails or answers out of shape.
-/
namespace CorpusIndex

variable {σ : Type}

/-- Replies in order, and the prompts they were given to. -/
structure Script where
  replies : List (Except Fault String) := []
  /-- start over after the last reply -/
  cycle : Bool := false
  used : Nat := 0
  prompts : List String := []

namespace Script

/-- The reply to the next prompt. -/
def reply (s : Script) : Except Fault String :=
  let next := if s.cycle && !s.replies.isEmpty then s.used % s.replies.length else s.used
  (s.replies[next]?).getD (.error (.reported "script exhausted"))

def noting (s : Script) (prompt : String) : Script :=
  { s with used := s.used + 1, prompts := s.prompts ++ [prompt] }

/-- The model that follows a script; every prompt is recorded before the reply. -/
def model (slot : Slot σ Script) : LanguageModel σ := ⟨fun p => do
  let s := slot.get (← get)
  modify (slot.set (s.noting p.text))
  s.reply⟩

end Script

namespace Embedder

/-- Every text has its vector in a table. -/
def ofTable (dim : Nat) (vectors : SortedMap String Embedding) : Embedder σ := ⟨dim, fun texts =>
  texts.mapM fun t =>
    match vectors.get? t with
    | some v => pure v
    | none => throw (.reported ("no vector for '" ++ t ++ "'"))⟩

/-- The same vectors without the last ones. -/
def withoutLast (e : Embedder σ) (count : Nat) : Embedder σ :=
  ⟨e.dim, fun texts => do
    let vs ← e.embedBatch texts
    return vs.take (vs.length - count)⟩

/-- Every call fails. -/
def refusing (dim : Nat) (text : String) : Embedder σ := ⟨dim, fun _ => throw (.reported text)⟩

end Embedder

/-- How an engine departs from the one behind it. -/
structure EngineFaults where
  /-- put before the id of every entry -/
  lead : String := ""
  /-- the id of every entry -/
  sameId : Option String := none
  /-- ids that are not given back, from the end -/
  drop : Nat := 0
  failAdd : Option String := none
  failQuery : Option String := none
  failDelete : Option String := none

namespace EngineFaults

/-- The id under which an entry is kept. -/
def rename (f : EngineFaults) (id : String) : String := f.sameId.getD (f.lead ++ id)

/-- A call that is refused if there is a text to refuse it with. -/
def unlessRefused (refusal : Option String) (c : Call σ α) : Call σ α :=
  match refusal with
  | some text => throw (.reported text)
  | none => c

def apply (f : EngineFaults) (e : VectorEngine σ) : VectorEngine σ where
  add entries := unlessRefused f.failAdd do
    let ids ← e.add (entries.map (fun n => { n with id := f.rename n.id }))
    return ids.take (ids.length - f.drop)
  query v most filter := unlessRefused f.failQuery (e.query v most filter)
  delete doc := unlessRefused f.failDelete (e.delete doc)

end EngineFaults
end CorpusIndex
