import Bytecode.Graph.Search
/-!
# Directed graphs and depth-first postorder

The nodes of a directed graph are the numbers below its size. Successor lists may repeat a node and may name nodes
outside the graph; a traversal ignores those. Postorder lists a node once everything its depth-first search found is
listed. It is computed with a stack of open nodes, each with the successors that are still to be tried, and a node is
marked when it is opened.
-/

namespace Bytecode

structure Digraph where
  size : Nat
  successors : Nat → List Nat
  predecessors : Nat → List Nat

namespace Digraph

def nodes (graph : Digraph) : List Nat :=
  List.range graph.size

/-- The graph with the given edges, listed in their order. An edge that leaves the graph has no predecessor entry. -/
def ofEdges (size : Nat) (edges : List (Nat × Nat)) : Digraph where
  size := size
  successors node := (edges.filter (·.1 = node)).map (·.2)
  predecessors node := if node < size then (edges.filter (·.2 = node)).map (·.1) else []

def nodeText (node : Nat) : String :=
  s!"n{node}"

/-- The long form, which names the kind of identifier. -/
def nodeLongText (node : Nat) : String :=
  s!"NodeId({node})"

/-- A node whose search is open, with the successors still to be tried. -/
structure Frame where
  node : Nat
  untried : List Nat
deriving DecidableEq

/-- Work left on the open nodes: one step per untried successor and one to close the node. -/
def openWork (stack : List Frame) : Nat :=
  stack.foldr (fun frame rest => frame.untried.length + 1 + rest) 0

/-- The nodes in the order in which they are closed. -/
def closeFrames (graph : Digraph) : (stack : List Frame) → (marked : List Nat) → List Nat
  | [], _ => []
  | ⟨node, []⟩ :: stack, marked => node :: graph.closeFrames stack marked
  | ⟨node, next :: untried⟩ :: stack, marked =>
    if next ∈ graph.nodes ∧ next ∉ marked then
      graph.closeFrames (⟨next, graph.successors next⟩ :: ⟨node, untried⟩ :: stack) (next :: marked)
    else graph.closeFrames (⟨node, untried⟩ :: stack) marked
termination_by stack marked => openWork stack + Graph.unexplored graph.nodes graph.successors marked
decreasing_by
  · simp [openWork]
  · next h =>
    have := Graph.unexplored_cons_lt graph.successors h.1 h.2
    simp only [openWork, List.foldr_cons, List.length_cons]
    omega
  · simp [openWork]

/-- The nodes reachable from `start` in depth-first postorder; none if `start` is outside the graph. -/
def postorder (graph : Digraph) (start : Nat) : List Nat :=
  if start < graph.size then graph.closeFrames [⟨start, graph.successors start⟩] [start] else []

/-- Every node stands before its successors, back edges excepted. -/
def reversePostorder (graph : Digraph) (start : Nat) : List Nat :=
  (graph.postorder start).reverse

end Digraph

end Bytecode
