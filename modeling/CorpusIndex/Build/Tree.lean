import CorpusIndex.Groups
import CorpusIndex.Index.Forest
import CorpusIndex.Selection
import CorpusIndex.Summary

/-!
# Building summary forests

A forest grows from its leaves upward, every level a summary of groups of the level below. Later nodes
are routed down to a level of leaves; a level that becomes too wide is split under two new summaries,
and the summaries above are written anew.
-/
namespace CorpusIndex.Forest

variable {σ τ α : Type}

/-- Id of the summary at a position. -/
def summaryId (tree : String) (p : Nat) : String := tree ++ ":summary:" ++ toString p

/-- A node with a text of its own above `children`. -/
def summaryNode (id text : String) (children : List String) : Node :=
  children.foldl (fun n c => n.addLink .child c) { id, text }

/-- The greatest number of siblings is two at least. -/
def checkWidth (width : Nat) : Except Failure Unit :=
  if width < 2 then .error (.invalid (.tooFewChildren width)) else .ok ()

/-! ### From the leaves -/

/-- Leaves as roots, in order; each has to be stored. -/
def plant (store : NodeStore) : Forest → List Node → Except Failure Forest
  | f, [] => .ok f
  | f, n :: rest => do
    let _ ← store.node n.id
    let (f, _) ← f.insert n.id none []
    plant store f rest

/-- A forest being built: the summaries made so far, and the current level as ids and texts. -/
structure Growth where
  forest : Forest
  made : List Node := []
  level : List (String × String)

/-- Summaries above groups of siblings. -/
def coverGroups (s : Summarizer σ) (tree : String) :
    Growth → List (List (String × String)) → Action σ Growth
  | g, [] => pure g
  | g, group :: rest => do
    let text ← s.summarize (group.map (·.2))
    let p ← g.forest.nextPosition
    let id := summaryId tree p
    let children := group.map (·.1)
    let (forest, _) ← g.forest.insert id (some p) children
    coverGroups s tree
      { forest, made := g.made ++ [summaryNode id text children], level := g.level ++ [(id, text)] } rest

/-- Levels above one another until one is narrow enough. `fuel` bounds the number of levels. -/
def raise (s : Summarizer σ) (width : Nat) (tree : String) : (fuel : Nat) → Growth → Action σ Growth
  | 0, g => pure g
  | fuel + 1, g =>
    if g.level.length ≤ width then pure g
    else do
      raise s width tree fuel (← coverGroups s tree { g with level := [] } (groups width g.level))

/-- A forest over stored leaves. Its summaries enter the store once it is complete. -/
def build (s : Summarizer σ) (width : Nat) (tree : String) (leaves : List Node) (store : NodeStore) :
    Action σ (Forest × NodeStore) := do
  checkWidth width
  let planted ← plant store { id := tree } leaves
  let g ← raise s width tree leaves.length { forest := planted, level := leaves.map (fun n => (n.id, n.text)) }
  let summary ← if g.level.isEmpty then pure none else some <$> s.summarize (g.level.map (·.2))
  let store ← store.add g.made false
  return ({ g.forest with summary }, store)

/-! ### One node at a time -/

/-- A forest and the store of its nodes. -/
abbrev Grove := Forest × NodeStore

/-- Texts of nodes that are referred to. -/
def textsOf (store : NodeStore) (ids : List String) : Except Failure (List String) := do
  return (← store.resolveAll ids).map (·.text)

/-- Put a new summary between `parent` and a group of its children. -/
def coverGroup (s : Summarizer σ) (parent : Option String) (g : Grove) (group : List String) :
    Action σ Grove := do
  let (f, store) := g
  let text ← s.summarize (← textsOf store group)
  let id := summaryId f.id (← f.nextPosition)
  let (f, _) ← f.insertBetween id parent group
  return (f, ← store.add [summaryNode id text group] false)

/-- Attach a node below `parent`, and split the level if that makes it too wide. -/
def attachAndSplit (s : Summarizer σ) (width : Nat) (id : String) (parent : Option String) (g : Grove) :
    Action σ Grove := do
  let (f, store) := g
  let (f, _) ← f.insertUnder id parent none
  let siblings := (← f.childrenOf parent).map (·.2)
  if siblings.length ≤ width then return (f, store)
  let half := siblings.length / 2
  let g ← coverGroup s parent (f, store) (siblings.take half)
  coverGroup s parent g (siblings.drop half)

/-- Write the summary at `parent` anew. -/
def refresh (s : Summarizer σ) (parent : String) (g : Grove) : Action σ Grove := do
  let (f, store) := g
  let children := (← f.childrenOf (some parent)).map (·.2)
  let text ← s.summarize (← textsOf store children)
  return (f, ← store.setText parent text)

/-- The child to follow towards the leaves, if one is selected. -/
def route (sel : Selector σ) (store : NodeStore) (id : String) (children : List String) :
    Action σ (Option String) := do
  let candidates ← store.resolveAll children
  let query : Query := { text := (← store.node id).text }
  let picked ← sel.select query candidates 1
  return picked.head?.bind (fun p => (candidates[p.1]?).map (·.id))

/-- Insert a stored node somewhere below `parent`. `fuel` bounds the depth of the forest. -/
def insertNode (s : Summarizer σ) (sel : Selector σ) (width : Nat) (id : String) :
    (fuel : Nat) → (parent : Option String) → Grove → Action σ Grove
  | 0, _, g => throw (.corrupt (.cycle g.1.id))
  | fuel + 1, parent, g => do
    let children := (← g.1.childrenOf parent).map (·.2)
    let atLeaves := match children with
      | [] => true
      | first :: _ => g.1.isLeaf first
    let chosen ← if atLeaves then pure none else route sel g.2 id children
    let g ← match chosen with
      | some child => insertNode s sel width id fuel (some child) g
      | none => attachAndSplit s width id parent g
    match parent with
    | some p => refresh s p g
    | none => return g

/-- Insert stored nodes one after another. -/
def insertAll (s : Summarizer σ) (sel : Selector σ) (width : Nat) : List String → Grove → Action σ Grove
  | [], g => pure g
  | id :: rest, g => do
    insertAll s sel width rest (← insertNode s sel width id g.1.depthBound none g)

/-- Store a batch of new nodes and insert them; on failure there is no new forest and no new store. -/
def grow (s : Summarizer σ) (sel : Selector σ) (width : Nat) (batch : List Node) (g : Grove) :
    Action σ Grove := do
  checkWidth width
  let store ← g.2.add batch false
  insertAll s sel width (batch.map (·.id)) (g.1, store)

/-! ### In place

A forest and the store of its nodes can be a part of the state. They are written to once nothing can fail any
more, so that a failure leaves both.
-/

/-- Run beside a part of the state that is not touched. -/
def apart (a : Action σ α) : Action (τ × σ) α :=
  ExceptT.mk fun st =>
    let (r, after) := a.run st.2
    (r, (st.1, after))

/-- Nodes written into the store of the state, one after another. -/
def putEach : List Node → Action (NodeStore × σ) PUnit
  | [] => pure ⟨⟩
  | n :: rest => do
    modify fun st => (st.1.put n, st.2)
    putEach rest

/-- `NodeStore.add` without replacement, into the store of the state: a batch is checked, then written. -/
def addInPlace (batch : List Node) : Action (NodeStore × σ) PUnit := do
  match (← get).1.refusal? false [] batch with
  | some r => throw (.repeated r)
  | none => putEach batch

/-- `build` with the store in the state, read when leaves are planted and written to with the summaries. -/
def buildInPlace (s : Summarizer σ) (width : Nat) (tree : String) (leaves : List Node) :
    Action (NodeStore × σ) Forest := do
  checkWidth width
  let planted ← plant (← get).1 { id := tree } leaves
  let g ← apart (raise s width tree leaves.length
    { forest := planted, level := leaves.map (fun n => (n.id, n.text)) })
  let summary ← if g.level.isEmpty then pure none
    else some <$> apart (s.summarize (g.level.map (·.2)))
  addInPlace g.made
  return { g.forest with summary }

/-- `grow` with forest and store in the state: it works on copies of both, and writes these back. -/
def growInPlace (s : Summarizer σ) (sel : Selector σ) (width : Nat) (batch : List Node) :
    Action (Grove × σ) PUnit := do
  let staged ← apart (grow s sel width batch (← get).1)
  modify fun st => ((staged.1, st.1.2), st.2)
  modify fun st => ((st.1.1, staged.2), st.2)

end CorpusIndex.Forest
