import Bytecode.Graph.Traversal
/-!
# Dominator trees

A node dominates another if every path from the entry to the other passes through it. The tree of immediate
dominators is found by iteration in reverse postorder. A node is known by its *position* in that order, so the entry
has position zero and a node's immediate dominator has a smaller position than the node itself. One sweep gives every
position but the first the nearest common ancestor of those of its predecessors that already have a parent; sweeps are
repeated as long as they lower the sum of all parents.
-/

namespace Bytecode

namespace Dominators

/-- The parent of each position, as far as it is known. The entry is its own parent. -/
abbrev Parents := List (Option Nat)

def parent? (parents : Parents) (position : Nat) : Option Nat :=
  parents[position]?.join

/-- The nearest common ancestor of two positions, found by moving up whichever lies deeper. -/
def meet (parents : Parents) (left right : Nat) : Nat :=
  if left = right then left
  else if right < left then
    match parent? parents left with
    | some up => if up < left then meet parents up right else right
    | none => right
  else
    match parent? parents right with
    | some up => if up < right then meet parents left up else left
    | none => left
termination_by left + right

/-- The common ancestor of the predecessors that have a parent, taken in their order. -/
def meetAll (parents : Parents) (predecessors : List Nat) : Option Nat :=
  predecessors.foldl (fun known predecessor =>
    if (parent? parents predecessor).isNone then known
    else match known with
      | none => some predecessor
      | some current => some (meet parents predecessor current)) none

def improve (predecessors : Nat → List Nat) (parents : Parents) (position : Nat) : Parents :=
  match meetAll parents (predecessors position) with
  | none => parents
  | some found => parents.set position (some found)

/-- One pass over all positions but the entry's. -/
def sweep (predecessors : Nat → List Nat) (parents : Parents) : Parents :=
  (List.range parents.length).tail.foldl (improve predecessors) parents

/-- The sum of all parents, a position without one counting more than any parent. -/
def potential (parents : Parents) : Nat :=
  parents.foldr (fun parent rest => parent.getD parents.length + rest) 0

def settle (predecessors : Nat → List Nat) (parents : Parents) : Parents :=
  let next := sweep predecessors parents
  if potential next < potential parents then settle predecessors next else next
termination_by potential parents

/-- Nothing is known but that the entry is its own parent. -/
def initial (size : Nat) : Parents :=
  (List.replicate size none).set 0 (some 0)

end Dominators

/-- The tree of immediate dominators of the nodes reachable from `entry`. -/
structure DominatorTree where
  entry : Nat
  /-- The reachable nodes in reverse postorder. -/
  order : List Nat
  /-- The position of each position's immediate dominator. -/
  parents : Dominators.Parents

namespace DominatorTree

def ofGraph (graph : Digraph) (entry : Nat) : DominatorTree :=
  let order := graph.reversePostorder entry
  let predecessors (position : Nat) : List Nat :=
    match order[position]? with
    | none => []
    | some node => (graph.predecessors node).filterMap order.idxOf?
  { entry, order, parents := Dominators.settle predecessors (Dominators.initial order.length) }

def isReachable (tree : DominatorTree) (node : Nat) : Bool :=
  tree.order.contains node

/-- The position of the immediate dominator; the entry has none. -/
def parentPosition? (tree : DominatorTree) (position : Nat) : Option Nat :=
  if position = 0 then none else Dominators.parent? tree.parents position

def immediateDominator? (tree : DominatorTree) (node : Nat) : Option Nat := do
  let position ← tree.order.idxOf? node
  let parent ← tree.parentPosition? position
  tree.order[parent]?

/-- A position and its ancestors, nearest first. -/
def ancestors (tree : DominatorTree) (position : Nat) : List Nat :=
  position ::
    match tree.parentPosition? position with
    | some parent => if parent < position then tree.ancestors parent else []
    | none => []
termination_by position

/-- Every reachable node dominates itself. -/
def dominates (tree : DominatorTree) (upper lower : Nat) : Bool :=
  match tree.order.idxOf? upper, tree.order.idxOf? lower with
  | some above, some below => (tree.ancestors below).contains above
  | _, _ => false

/-- Positions of the children, in ascending order. -/
def childPositions (tree : DominatorTree) (position : Nat) : List Nat :=
  (List.range tree.order.length).filter fun child =>
    position < child && tree.parentPosition? child == some position

def children (tree : DominatorTree) (node : Nat) : List Nat :=
  match tree.order.idxOf? node with
  | none => []
  | some position => (tree.childPositions position).filterMap (tree.order[·]?)

/-- The positions of the subtree at `position`, each before its descendants and siblings in ascending order. -/
def subtree (tree : DominatorTree) (position : Nat) : List Nat :=
  position :: (tree.childPositions position).attach.flatMap fun ⟨child, _⟩ => tree.subtree child
termination_by tree.order.length - position
decreasing_by
  next hchild =>
  simp only [childPositions, List.mem_filter, List.mem_range, Bool.and_eq_true, decide_eq_true_eq] at hchild
  omega

/-- The reachable nodes, each after all of its dominators. -/
def preorder (tree : DominatorTree) : List Nat :=
  if tree.order.isEmpty then [] else (tree.subtree 0).filterMap (tree.order[·]?)

end DominatorTree

end Bytecode
