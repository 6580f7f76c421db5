import CorpusIndex.Build.Tree

/-!
# Answers from a forest

All leaves, all roots, or the nodes that a selector leads to when it is asked level by level from the
roots down.
-/
namespace CorpusIndex

variable {σ : Type}

/-- How a forest is searched. -/
inductive TreeMode where
  | selectLeaf
  | selectLeafEmbedding
  | allLeaf
  | root
  deriving DecidableEq, Inhabited, Repr

namespace TreeMode

def name : TreeMode → String
  | .selectLeaf => "select_leaf"
  | .selectLeafEmbedding => "select_leaf_embedding"
  | .allLeaf => "all_leaf"
  | .root => "root"

def ofName : String → Except Failure TreeMode
  | "select_leaf" => .ok .selectLeaf
  | "select_leaf_embedding" => .ok .selectLeafEmbedding
  | "all_leaf" => .ok .allLeaf
  | "root" => .ok .root
  | other => .error (.invalid (.unknownTreeMode other))

end TreeMode

namespace Forest

/-- What to return of a forest. -/
inductive Traversal (σ : Type) where
  | leaves
  | roots
  | descent (s : Selector σ)

/-- How far a descent goes. -/
structure Reach where
  branchFactor : Nat := 1
  depthLimit : Option Nat := none

def hitsOf (store : NodeStore) (ids : List String) : Except Failure (List Hit) := do
  return (← store.resolveAll ids).map (fun n => { node := n })

/-- The limit ends the descent below nodes of this depth. -/
def Reach.stopsAt (r : Reach) (depth : Nat) : Bool := r.depthLimit.any (fun limit => limit ≤ depth + 1)

/-- Follow the picked children of `parent` one after another. `fuel` bounds the depth of the forest. -/
def descend (f : Forest) (store : NodeStore) (s : Selector σ) (r : Reach) (q : Query) :
    (fuel : Nat) → (parent : Option String) → (depth : Nat) → Retrieval → Action σ Retrieval
  | 0, _, _, _ => throw (.corrupt (.cycle f.id))
  | fuel + 1, parent, depth, out => do
    let candidates ← store.resolveAll ((← f.childrenOf parent).map (·.2))
    let picks ← s.select q candidates r.branchFactor
    picks.foldlM
      (fun out pick => do
        match candidates[pick.1]? with
        | none => return out
        | some child =>
          let similarity := match pick.2 with
            | some score => out.similarity.add child.id score
            | none => out.similarity
          if r.stopsAt depth || f.isLeaf child.id then
            return ⟨out.hits ++ [⟨child, pick.2⟩], similarity⟩
          else
            f.descend store s r q fuel (some child.id) (depth + 1) ⟨out.hits, similarity⟩)
      out

/-- The answer of a forest. -/
def retrieve (f : Forest) (store : NodeStore) (t : Traversal σ) (r : Reach) : Retriever σ := fun q => do
  if r.branchFactor = 0 then throw (.invalid .zeroBranchFactor)
  if r.depthLimit = some 0 then throw (.invalid .zeroDepthLimit)
  if f.isEmpty then return {}
  match t with
  | .leaves => return { hits := ← hitsOf store f.leafIds }
  | .roots => return { hits := ← hitsOf store f.roots.values }
  | .descent s => f.descend store s r q f.depthBound none 0 {}

end Forest
end CorpusIndex
