import CorpusIndex.NodeStore

/-!
# Summary forests

Node ids at numbered positions. `positions` inverts `nodes`, `children` holds the positions below a
node, and `roots` those that are below none. New nodes enter as roots, under a parent, or between a
parent and some of its children; deleting a document hands orphaned children upward and takes along
derived nodes that it leaves without children.
-/
namespace CorpusIndex

structure Forest where
  id : String
  summary : Option String := none
  nodes : SortedMap Nat String := ∅
  roots : SortedMap Nat String := ∅
  positions : SortedMap String Nat := ∅
  children : SortedMap String (SortedSet Nat) := ∅
  deriving DecidableEq, Inhabited, Repr

namespace Forest

def size (f : Forest) : Nat := f.nodes.size
def isEmpty (f : Forest) : Bool := f.nodes.isEmpty

/-- Node ids in position order. -/
def nodeIds (f : Forest) : List String := f.nodes.values

def contains (f : Forest) (id : String) : Bool := f.positions.contains id

/-- The position after the greatest one in use. -/
def nextPosition (f : Forest) : Except Failure Nat :=
  match f.nodes.lastKey? with
  | none => .ok 0
  | some last => if last < Decimal.maxWord then .ok (last + 1) else .error .positionsExhausted

def position (f : Forest) (id : String) : Except Failure Nat :=
  match f.positions.get? id with
  | some p => .ok p
  | none => .error (.absent (.treeNode id f.id))

/-- The first node, in id order, that has position `p` below it. -/
def parentOf? (f : Forest) (p : Nat) : Option String :=
  (f.children.find? (fun _ below => below.contains p)).map (·.1)

def parent? (f : Forest) (id : String) : Option String := (f.positions.get? id).bind f.parentOf?

/-- Positions below a node, or the roots'. -/
def childPositions (f : Forest) : Option String → Except Failure (SortedSet Nat)
  | none => .ok (f.roots.mapValues (fun _ _ => ()))
  | some parent => do
    let _ ← f.position parent
    return f.children.getD parent ∅

/-- Positions and ids below a node, or of the roots. -/
def childrenOf (f : Forest) (parent : Option String) : Except Failure (List (Nat × String)) := do
  (← f.childPositions parent).elems.mapM fun p =>
    match f.nodes.get? p with
    | some id => .ok (p, id)
    | none => .error (.corrupt (.childPosition p f.id))

def isLeaf (f : Forest) (id : String) : Bool := (f.children.getD id ∅).isEmpty

/-- Ids of nodes without children, in position order. -/
def leafIds (f : Forest) : List String := f.nodeIds.filter f.isLeaf

/-- Descents end after this many levels. A well-formed forest has no more levels than nodes; where
links go in a circle, a selector or a limit may still end a descent much later. -/
def depthBound (f : Forest) : Nat := f.size + 4096

/-! ### Growing -/

/-- The node is new and the position is free. -/
def checkFree (f : Forest) (id : String) (p : Nat) : Except Failure Unit :=
  if f.contains id then .error (.repeated (.treeNode id f.id))
  else match f.nodes.get? p with
    | some holder => .error (.repeated (.treePosition p holder))
    | none => .ok ()

/-- The position asked for, or the next free one. -/
def choosePosition (f : Forest) : Option Nat → Except Failure Nat
  | some p => .ok p
  | none => f.nextPosition

/-- Positions of nodes that have no parent yet, none of them twice. -/
def adoptRoots (f : Forest) : (taken : SortedSet Nat) → List String → Except Failure (SortedSet Nat)
  | taken, [] => .ok taken
  | taken, c :: rest => do
    let p ← f.position c
    match f.parent? c with
    | some parent => .error (.repeated (.treeChild c parent))
    | none =>
      if taken.contains p then .error (.repeated (.treeChildTwice c))
      else f.adoptRoots (taken.add p) rest

/-- A new root above `children`, at a given position or the next one. -/
def insert (f : Forest) (id : String) (at? : Option Nat) (children : List String) :
    Except Failure (Forest × Nat) := do
  let p ← f.choosePosition at?
  f.checkFree id p
  let below ← f.adoptRoots ∅ children
  return ({ f with
    nodes := f.nodes.insert p id
    roots := (f.roots.filter (fun q _ => !below.contains q)).insert p id
    positions := f.positions.insert id p
    children := if below.isEmpty then f.children else f.children.insert id below }, p)

/-- `id` at position `p` below `parent`, or as a root. -/
def attach (f : Forest) (id : String) (parent : Option String) (p : Nat) : Forest :=
  match parent with
  | none => { f with
      roots := f.roots.insert p id
      nodes := f.nodes.insert p id
      positions := f.positions.insert id p }
  | some parent => { f with
      children := f.children.update parent ∅ (·.add p)
      nodes := f.nodes.insert p id
      positions := f.positions.insert id p }

/-- A parent that is named has to be in the forest. -/
def checkParent (f : Forest) : Option String → Except Failure Unit
  | none => .ok ()
  | some parent =>
    if f.contains parent then .ok () else .error (.absent (.treeParent parent f.id))

/-- A new node below `parent`, or as a root. -/
def insertUnder (f : Forest) (id : String) (parent : Option String) (at? : Option Nat) :
    Except Failure (Forest × Nat) := do
  let p ← f.choosePosition at?
  f.checkFree id p
  f.checkParent parent
  return (f.attach id parent p, p)

/-- None of the ids comes twice or is in the forest. -/
def checkNew (f : Forest) : (seen : List String) → List String → Except Failure Unit
  | _, [] => .ok ()
  | seen, id :: rest =>
    if seen.contains id || f.contains id then .error (.repeated (.treeNode id f.id))
    else f.checkNew (id :: seen) rest

/-- Nodes at the next positions, one after another. The forest reached comes back also where positions
run out on the way. -/
def attachAll (parent : Option String) : Forest → List String → Forest × Except Failure (List Nat)
  | f, [] => (f, .ok [])
  | f, id :: rest =>
    match f.nextPosition with
    | .error e => (f, .error e)
    | .ok p =>
      let (f, ps) := attachAll parent (f.attach id parent p) rest
      (f, (p :: ·) <$> ps)

/-- New nodes below one parent, or as roots. Ids that are refused leave the forest as it is. -/
def insertManyUnder (f : Forest) (ids : List String) (parent : Option String) :
    Forest × Except Failure (List Nat) :=
  match f.checkParent parent >>= fun _ => f.checkNew [] ids with
  | .error e => (f, .error e)
  | .ok () => attachAll parent f ids

/-- Positions of nodes that are all among `siblings`. -/
def adoptFrom (f : Forest) (parent : Option String) (siblings : SortedSet Nat) :
    (taken : SortedSet Nat) → List String → Except Failure (SortedSet Nat)
  | taken, [] => .ok taken
  | taken, c :: rest => do
    let p ← f.position c
    if siblings.contains p then f.adoptFrom parent siblings (taken.add p) rest
    else .error (.absent (.treeChild c parent))

/-- `adopted` taken away from `parent`, or from the roots. -/
def detach (f : Forest) (parent : Option String) (adopted : SortedSet Nat) : Forest :=
  match parent with
  | none => { f with roots := f.roots.filter (fun q _ => !adopted.contains q) }
  | some parent =>
    match f.children.get? parent with
    | none => f
    | some below =>
      { f with children := f.children.insert parent (below.filter (fun q _ => !adopted.contains q)) }

/-- A new node in the place of some children of `parent`, or of some roots, and above them. -/
def insertBetween (f : Forest) (id : String) (parent : Option String) (children : List String) :
    Except Failure (Forest × Nat) := do
  let p ← f.nextPosition
  f.checkFree id p
  let siblings ← f.childPositions parent
  let adopted ← f.adoptFrom parent siblings ∅ children
  let g := f.detach parent adopted
  let g := if adopted.isEmpty then g else { g with children := g.children.insert id adopted }
  return (g.attach id parent p, p)

/-! ### Checking -/

/-- How many recorded child sets hold a position. -/
def parentCount (f : Forest) (p : Nat) : Nat :=
  (f.children.values.filter (fun below => below.contains p)).length

/-- Recorded parents and children are in the forest. -/
def checkChildren (f : Forest) : Except Failure Unit :=
  f.children.toList.forM fun (parent, below) =>
    if f.positions.contains parent then
      below.elems.forM fun c =>
        if f.nodes.contains c then .ok ()
        else .error (.corrupt (.unoccupiedChild c parent))
    else .error (.corrupt (.unknownParent parent))

/-- Every node is found by its id and is either a root or below exactly one node. -/
def checkNodes (f : Forest) : Except Failure Unit :=
  f.nodes.toList.forM fun (p, id) =>
    let parents := f.parentCount p
    if f.positions.get? id ≠ some p then .error (.corrupt (.positionOutOfSync id))
    else if parents > 1 then .error (.corrupt (.parentCount id parents))
    else if (parents == 0) ≠ f.roots.contains p then .error (.corrupt (.rootDisagrees id))
    else .ok ()

/-- Positions reached from a stack of positions, the top one first. -/
def reach (f : Forest) : (fuel : Nat) → (reached : SortedSet Nat) → (stack : List Nat) →
    Except Failure (SortedSet Nat)
  | 0, reached, _ => .ok reached
  | _, reached, [] => .ok reached
  | fuel + 1, reached, p :: stack =>
    if reached.contains p then .error (.corrupt (.reachedTwice p))
    else
      let below := ((f.nodes.get? p).bind f.children.get?).getD ∅
      f.reach fuel (reached.add p) (below.elems.reverse ++ stack)

/-- No walk from the roots takes more steps than this without meeting a position twice. -/
def reachBound (f : Forest) : Nat :=
  f.roots.size + (f.children.values.flatMap (·.elems)).length + 2

/-- The forest is well formed. -/
def validate (f : Forest) : Except Failure Unit := do
  f.checkChildren
  f.checkNodes
  let reached ← f.reach f.reachBound ∅ f.roots.keys.reverse
  if reached.size = f.size then .ok () else .error (.corrupt (.cycle f.id))

/-! ### Deleting -/

/-- Take a node out and hand its children to its parent, or make them roots. The parent comes back if
it is left without children. -/
def removeNode (f : Forest) (id : String) : Forest × Option String :=
  match f.positions.get? id with
  | none => (f, none)
  | some p =>
    let orphans := f.children.getD id ∅
    let children := f.children.erase id
    let nodes := f.nodes.erase p
    let positions := f.positions.erase id
    match f.parentOf? p with
    | some parent =>
      let below := ((children.getD parent ∅).erase p).union orphans
      if below.isEmpty then ({ f with nodes, positions, children := children.erase parent }, some parent)
      else ({ f with nodes, positions, children := children.insert parent below }, none)
    | none =>
      let roots := orphans.elems.foldl
        (fun roots q => match nodes.get? q with
          | some child => roots.insert q child
          | none => roots)
        (f.roots.erase p)
      ({ f with nodes, positions, children, roots }, none)

/-- Take out derived nodes from one left without children upward. The forest reached comes back also
where a lookup fails on the way. -/
def pruneUpward (store : NodeStore) (doomed : List String) :
    (fuel : Nat) → Forest → Option String → Forest × Except Failure (List String)
  | 0, f, _ => (f, .ok [])
  | _, f, none => (f, .ok [])
  | fuel + 1, f, some parent =>
    match store.resolve parent with
    | .error e => (f, .error e)
    | .ok n =>
      if n.document.isSome || doomed.contains parent then (f, .ok [])
      else
        let (f, emptied) := f.removeNode parent
        let (f, pruned) := pruneUpward store doomed fuel f emptied
        (f, (parent :: ·) <$> pruned)

/-- Take out nodes and the derived nodes they leave without children. -/
def removeAll (store : NodeStore) (doomed : List String) :
    Forest → List String → Forest × Except Failure (List String)
  | f, [] => (f, .ok [])
  | f, id :: rest =>
    let (f, emptied) := f.removeNode id
    match pruneUpward store doomed (f.positions.size + 1) f emptied with
    | (f, .error e) => (f, .error e)
    | (f, .ok pruned) =>
      let (f, more) := removeAll store doomed f rest
      (f, (pruned ++ ·) <$> more)

/-- Ids of the document's nodes, in position order. -/
def ownedBy (f : Forest) (doc : String) (store : NodeStore) : Except Failure (List String) := do
  let nodes ← f.nodeIds.mapM (fun id => do return (id, ← store.resolve id))
  return (nodes.filter (fun n => n.2.document == some doc)).map (·.1)

/-- Delete a document's nodes. The ids taken out come back, the document's own first. -/
def deleteDocument (f : Forest) (doc : String) (store : NodeStore) :
    Forest × Except Failure (List String) :=
  match f.ownedBy doc store with
  | .error e => (f, .error e)
  | .ok doomed =>
    if doomed.isEmpty then (f, .error (.absent (.document doc (.tree f.id))))
    else
      let (g, pruned) := removeAll store doomed f doomed
      (g, (doomed ++ ·) <$> pruned)

end Forest
end CorpusIndex
