import Bytecode.Proofs.Graph.Postorder
import Mathlib.Logic.Function.Iterate
/-!
# Postorder is a depth-first postorder

The search with a stack of open nodes lists what the plain recursion lists: an open node stands for a call of the recursion
that has still some successors to go through, and the calls end from the top of the stack down. The search marks nodes in
another order than the recursion, but what is marked matters only as a set.

Every round of the search takes one successor off an open node or closes one, so the number of rounds is that of the
listed nodes and their edges together. An edge that does not lead back in the order leads to an open node, and from there
the stack is a path to where the edge starts.
-/

namespace Bytecode.Digraph

variable {graph : Digraph} {entry : Nat}

/-! ### The recursive search -/

private theorem unexplored_append_le (graph : Digraph) (listed marked : List Nat) :
    Graph.unexplored graph.nodes graph.successors (listed ++ marked)
      ≤ Graph.unexplored graph.nodes graph.successors marked := by
  induction listed with
  | nil => exact Nat.le_refl _
  | cons node listed ih => exact (Graph.unexplored_cons_le ..).trans ih

/-- The plain depth-first search from some nodes, one after another: a node of the graph that is not marked yet is marked,
the search goes on from its successors, and then the node is listed. What a search marks is what it lists. -/
def depthFirst (graph : Digraph) : (untried marked : List Nat) → List Nat
  | [], _ => []
  | next :: untried, marked =>
    if next ∈ graph.nodes ∧ next ∉ marked then
      graph.depthFirst (graph.successors next) (next :: marked) ++
        next :: graph.depthFirst untried (graph.depthFirst (graph.successors next) (next :: marked) ++ next :: marked)
    else graph.depthFirst untried marked
termination_by untried marked => (Graph.unexplored graph.nodes graph.successors marked, untried.length)
decreasing_by
  · next h =>
    have := Graph.unexplored_cons_lt graph.successors h.1 h.2
    exact .left _ _ (by omega)
  · next h =>
    have := Graph.unexplored_cons_lt graph.successors h.1 h.2
    exact .left _ _ (Nat.lt_of_le_of_lt (graph.unexplored_append_le _ _) (by omega))
  · exact .right _ (by simp)

/-- Only the set of marked nodes matters. -/
theorem depthFirst_congr {untried marked others : List Nat} (h : ∀ node, node ∈ marked ↔ node ∈ others) :
    graph.depthFirst untried marked = graph.depthFirst untried others := by
  fun_induction depthFirst graph untried marked generalizing others with
  | case1 => rw [depthFirst]
  | case2 next untried marked hfresh ihBelow ihRest =>
    have hmarked : ∀ node, node ∈ next :: marked ↔ node ∈ next :: others := by
      intro node
      rw [List.mem_cons, List.mem_cons, h]
    have hlater : ∀ node, node ∈ graph.depthFirst (graph.successors next) (next :: marked) ++ next :: marked ↔
        node ∈ graph.depthFirst (graph.successors next) (next :: others) ++ next :: others := by
      intro node
      rw [List.mem_append, List.mem_append, ihBelow hmarked, hmarked]
    have hothers : next ∈ graph.nodes ∧ next ∉ others := ⟨hfresh.1, fun hmem => hfresh.2 ((h next).2 hmem)⟩
    rw [depthFirst, if_pos hothers, ihRest hlater, ihBelow hmarked]
  | case3 next untried marked hseen ih =>
    rw [depthFirst, if_neg fun hfresh => hseen ⟨hfresh.1, fun hmem => hfresh.2 ((h next).1 hmem)⟩]
    exact ih h

/-- What the calls on a stack list until they have all ended. -/
def finishCalls (graph : Digraph) : (stack : List Frame) → (marked : List Nat) → List Nat
  | [], _ => []
  | ⟨node, untried⟩ :: stack, marked =>
    graph.depthFirst untried marked ++ node :: graph.finishCalls stack (graph.depthFirst untried marked ++ marked)

private theorem finishCalls_congr {stack : List Frame} {marked others : List Nat}
    (h : ∀ node, node ∈ marked ↔ node ∈ others) :
    graph.finishCalls stack marked = graph.finishCalls stack others := by
  induction stack generalizing marked others with
  | nil => rfl
  | cons frame stack ih =>
    have hbelow : graph.depthFirst frame.untried marked = graph.depthFirst frame.untried others := depthFirst_congr h
    have hrest : graph.finishCalls stack (graph.depthFirst frame.untried marked ++ marked)
        = graph.finishCalls stack (graph.depthFirst frame.untried others ++ others) := by
      apply ih
      intro node
      rw [List.mem_append, List.mem_append, hbelow, h]
    rw [finishCalls, finishCalls, hrest, hbelow]

/-- The search with a stack does what the calls on the stack do. -/
theorem closeFrames_eq_finishCalls (stack : List Frame) (marked : List Nat) :
    graph.closeFrames stack marked = graph.finishCalls stack marked := by
  fun_induction closeFrames graph stack marked with
  | case1 => rfl
  | case2 node stack marked ih => simp [finishCalls, depthFirst, ih]
  | case3 node next untried stack marked hfresh ih =>
    rw [ih, finishCalls, finishCalls, finishCalls, depthFirst, if_pos hfresh]
    -- both have marked the same nodes by the time the rest of the stack is taken up
    generalize graph.depthFirst (graph.successors next) (next :: marked) = below
    generalize graph.depthFirst untried (below ++ next :: marked) = later
    have hrest : graph.finishCalls stack (later ++ (below ++ next :: marked))
        = graph.finishCalls stack ((below ++ next :: later) ++ marked) := by
      apply finishCalls_congr
      intro other
      simp only [List.mem_append, List.mem_cons]
      tauto
    simp [hrest]
  | case4 node next untried stack marked hseen ih => rw [ih, finishCalls, finishCalls, depthFirst, if_neg hseen]

private theorem postorder_eq_depthFirst (graph : Digraph) (start : Nat) :
    graph.postorder start = graph.depthFirst [start] [] := by
  rw [depthFirst, postorder]
  by_cases hstart : start < graph.size
  · have hfresh : start ∈ graph.nodes ∧ start ∉ [] := ⟨List.mem_range.2 hstart, List.not_mem_nil⟩
    rw [if_pos hstart, if_pos hfresh, closeFrames_eq_finishCalls]
    simp [finishCalls, depthFirst]
  · have hnone : ¬ (start ∈ graph.nodes ∧ start ∉ []) := fun h => hstart (List.mem_range.1 h.1)
    rw [if_neg hstart, if_neg hnone, depthFirst]

/-! ### The rounds of the search -/

/-- How far the search has come: the open nodes, the marked ones and those that are closed. -/
structure Progress where
  stack : List Frame
  marked : List Nat
  closed : List Nat

/-- One round of the search. Without an open node nothing is left to do. -/
def advance (graph : Digraph) : Progress → Progress
  | ⟨[], marked, closed⟩ => ⟨[], marked, closed⟩
  | ⟨⟨node, []⟩ :: stack, marked, closed⟩ => ⟨stack, marked, closed ++ [node]⟩
  | ⟨⟨node, next :: untried⟩ :: stack, marked, closed⟩ =>
    if next ∈ graph.nodes ∧ next ∉ marked then
      ⟨⟨next, graph.successors next⟩ :: ⟨node, untried⟩ :: stack, next :: marked, closed⟩
    else ⟨⟨node, untried⟩ :: stack, marked, closed⟩

/-- The search before its first round. -/
def begin (graph : Digraph) (start : Nat) : Progress :=
  if start < graph.size then ⟨[⟨start, graph.successors start⟩], [start], []⟩ else ⟨[], [], []⟩

/-- The number of some nodes and the edges that start there. -/
def extent (graph : Digraph) (nodes : List Nat) : Nat :=
  nodes.foldr (fun node rest => (graph.successors node).length + 1 + rest) 0

/-- The rounds that are left go through the edges of what is listed in the end, apart from those of the open nodes that
have been tried before. -/
theorem closeFrames_by_rounds (graph : Digraph) (stack : List Frame) (marked closed : List Nat) :
    ∃ rounds seen, graph.advance^[rounds] ⟨stack, marked, closed⟩ = ⟨[], seen, closed ++ graph.closeFrames stack marked⟩ ∧
      rounds + graph.extent (stack.map (·.node)) = openWork stack + graph.extent (graph.closeFrames stack marked) := by
  fun_induction closeFrames graph stack marked generalizing closed with
  | case1 marked => exact ⟨0, marked, by simp, rfl⟩
  | case2 node stack marked ih =>
    obtain ⟨rounds, seen, hreached, hcount⟩ := ih (closed ++ [node])
    refine ⟨rounds + 1, seen, ?_, ?_⟩
    · rw [Function.iterate_succ_apply, advance, hreached, List.append_assoc]
      rfl
    · simp only [extent, openWork, List.map_cons, List.foldr_cons, List.length_nil] at hcount ⊢
      omega
  | case3 node next untried stack marked hfresh ih =>
    obtain ⟨rounds, seen, hreached, hcount⟩ := ih closed
    refine ⟨rounds + 1, seen, ?_, ?_⟩
    · rw [Function.iterate_succ_apply, advance, if_pos hfresh, hreached]
    · simp only [extent, openWork, List.map_cons, List.foldr_cons, List.length_cons] at hcount ⊢
      omega
  | case4 node next untried stack marked hseen ih =>
    obtain ⟨rounds, seen, hreached, hcount⟩ := ih closed
    refine ⟨rounds + 1, seen, ?_, ?_⟩
    · rw [Function.iterate_succ_apply, advance, if_neg hseen, hreached]
    · simp only [extent, openWork, List.map_cons, List.foldr_cons, List.length_cons] at hcount ⊢
      omega

private theorem postorder_by_rounds (graph : Digraph) (start : Nat) :
    ∃ marked, graph.advance^[graph.extent (graph.postorder start)] (graph.begin start)
      = ⟨[], marked, graph.postorder start⟩ := by
  rw [postorder, begin]
  split
  · obtain ⟨rounds, marked, hreached, hcount⟩ :=
      graph.closeFrames_by_rounds [⟨start, graph.successors start⟩] [start] []
    have hrounds : rounds = graph.extent (graph.closeFrames [⟨start, graph.successors start⟩] [start]) := by
      simp only [extent, openWork, List.map_cons, List.map_nil, List.foldr_cons, List.foldr_nil] at hcount ⊢
      omega
    exact ⟨marked, hrounds ▸ hreached⟩
  · exact ⟨[], rfl⟩

/-! ### Edges that lead forward in the order -/

/-- From a node that a path has passed the rest of the path leads to its end. -/
theorem Path.reachable_from {passed : List Nat} {node earlier : Nat} (h : graph.Path entry passed node)
    (hearlier : earlier ∈ passed) : graph.Reachable earlier node := by
  induction h with
  | start hentry =>
    obtain rfl := List.mem_singleton.1 hearlier
    exact ⟨[earlier], .start hentry⟩
  | @step passed node next _ hnext hlt ih =>
    by_cases hmem : earlier ∈ passed
    · exact (ih hmem).step hnext hlt
    · obtain rfl := (List.mem_cons.1 hearlier).resolve_right hmem
      exact ⟨[earlier], .start hlt⟩

/-- When a node is closed, its successors are marked, and those that are closed later are still open. -/
theorem reachable_of_listed_later {start node next : Nat} {before after : List Nat}
    (h : graph.postorder start = before ++ node :: after) (hedge : next ∈ graph.successors node) (hlater : next ∈ after) :
    graph.Reachable next node := by
  have hlisted : next ∈ graph.reversePostorder start := by
    rw [reversePostorder, List.mem_reverse, h]
    exact List.mem_append_right _ (List.mem_cons_of_mem _ hlater)
  obtain ⟨_, hpath⟩ := reachable_of_mem_reversePostorder hlisted
  obtain ⟨rest, seen, hsearching, htried, rfl⟩ := exists_searching_of_postorder h
  have hmarked := (htried _ List.mem_cons_self next hedge hpath.target_lt).resolve_left List.not_mem_nil
  have hopen := (mem_closeFrames hlater).resolve_right (not_not.2 hmarked)
  exact (hsearching.path _ rfl).reachable_from (List.mem_cons_of_mem _ hopen)

/-! ### The order as a whole -/

/-- From every start the search ends after as many rounds as there are listed nodes and edges that start there. It lists
what can be reached from the start, each node once, in the order of the plain recursion, and if an edge leads to a node
that is listed later, a path leads back. -/
theorem postorder_is_depth_first (graph : Digraph) (start : Nat) :
    (∃ marked, graph.advance^[graph.extent (graph.postorder start)] (graph.begin start)
      = ⟨[], marked, graph.postorder start⟩) ∧
    (graph.postorder start).Nodup ∧ (∀ node, node ∈ graph.postorder start ↔ graph.Reachable start node) ∧
    graph.postorder start = graph.depthFirst [start] [] ∧
    ∀ before node after next, graph.postorder start = before ++ node :: after → next ∈ graph.successors node →
      next ∈ after → graph.Reachable next node := by
  refine ⟨graph.postorder_by_rounds start, ?_, ?_, graph.postorder_eq_depthFirst start, ?_⟩
  · exact List.nodup_reverse.1 (reversePostorder_nodup graph start)
  · intro node
    rw [← mem_reversePostorder_iff, reversePostorder, List.mem_reverse]
  · intro before node after next hsplit hedge hlater
    exact reachable_of_listed_later hsplit hedge hlater

/-- A cycle and a node that leads to itself, with a repeated edge and one that leaves the graph. -/
def cycleAndLoop : Digraph :=
  ofEdges 4 [(0, 1), (1, 2), (2, 0), (2, 7), (0, 3), (3, 3), (3, 1), (0, 1)]

theorem postorder_is_depth_first_of_cycleAndLoop :
    cycleAndLoop.postorder 0 = [2, 1, 3, 0] ∧ 0 ∈ cycleAndLoop.successors 2 ∧ cycleAndLoop.Reachable 0 2 ∧
      cycleAndLoop.depthFirst [0] [] = [2, 1, 3, 0] := by
  have hlisted : cycleAndLoop.postorder 0 = [2, 1, 3, 0] := by decide +kernel
  have hedge : 0 ∈ cycleAndLoop.successors 2 := by decide
  obtain ⟨-, -, -, hrecursive, hback⟩ := postorder_is_depth_first cycleAndLoop 0
  exact ⟨hlisted, hedge, hback [] 2 [1, 3, 0] 0 hlisted hedge (by decide), hrecursive ▸ hlisted⟩

end Bytecode.Digraph
