import Bytecode.Graph.Traversal
import Mathlib.Data.List.Infix
/-!
# Paths and dominance

A path is given by the nodes it has passed, the last one first, so that a path which goes on is a longer list with the old
one as its tail, and the stack of a depth-first search is a path as it stands. A node dominates another if it lies on
every path from the entry to it. Below a node that cannot be reached there is nothing to say, and everything dominates it.
-/

namespace Bytecode.Digraph

variable {graph : Digraph} {entry : Nat}

/-- A path from the entry to `target` inside the graph, with the nodes that it has passed, latest first. -/
inductive Path (graph : Digraph) (entry : Nat) : List Nat → Nat → Prop
  | start : entry < graph.size → Path graph entry [entry] entry
  | step {passed : List Nat} {node next : Nat} : Path graph entry passed node → next ∈ graph.successors node →
      next < graph.size → Path graph entry (next :: passed) next

def Reachable (graph : Digraph) (entry node : Nat) : Prop :=
  ∃ passed, graph.Path entry passed node

/-- Every path from the entry to `lower` passes `upper`. -/
def Dominates (graph : Digraph) (entry upper lower : Nat) : Prop :=
  ∀ passed, graph.Path entry passed lower → upper ∈ passed

/-! ### Paths -/

namespace Path

theorem target_mem {passed : List Nat} {node : Nat} (h : graph.Path entry passed node) : node ∈ passed := by
  cases h with
  | start => exact List.mem_singleton_self _
  | step => exact List.mem_cons_self

theorem entry_mem {passed : List Nat} {node : Nat} (h : graph.Path entry passed node) : entry ∈ passed := by
  induction h with
  | start => exact List.mem_singleton_self _
  | step _ _ _ ih => exact List.mem_cons_of_mem _ ih

private theorem head?_eq {passed : List Nat} {node : Nat} (h : graph.Path entry passed node) :
    passed.head? = some node := by
  cases h <;> rfl

/-- The path before its last step. -/
theorem tail {passed : List Nat} {before node last : Nat} (h : graph.Path entry (node :: before :: passed) last) :
    graph.Path entry (before :: passed) before := by
  cases h with
  | step hpath =>
    obtain rfl := Option.some.inj hpath.head?_eq
    exact hpath

theorem target_lt {passed : List Nat} {node : Nat} (h : graph.Path entry passed node) : node < graph.size := by
  cases h with
  | start hentry => exact hentry
  | step _ _ hnext => exact hnext

theorem entry_lt {passed : List Nat} {node : Nat} (h : graph.Path entry passed node) : entry < graph.size := by
  induction h with
  | start hentry => exact hentry
  | step _ _ _ ih => exact ih

/-- The part of a path that leads to one of its nodes. -/
theorem upTo {passed : List Nat} {node : Nat} (h : graph.Path entry passed node) {earlier : Nat}
    (hearlier : earlier ∈ passed) : ∃ front, graph.Path entry front earlier ∧ front <:+ passed := by
  induction h with
  | start hentry =>
    obtain rfl := List.mem_singleton.1 hearlier
    exact ⟨[earlier], .start hentry, List.suffix_refl _⟩
  | @step passed node next hpath hnext hlt ih =>
    rcases List.mem_cons.1 hearlier with rfl | hmem
    · exact ⟨earlier :: passed, .step hpath hnext hlt, List.suffix_refl _⟩
    · obtain ⟨front, hfront, hsuffix⟩ := ih hmem
      exact ⟨front, hfront, hsuffix.trans (List.suffix_cons next passed)⟩

/-- The part that leads to another node of the path is shorter. -/
theorem upTo_lt {passed : List Nat} {node : Nat} (h : graph.Path entry passed node) {earlier : Nat}
    (hearlier : earlier ∈ passed) (hne : earlier ≠ node) :
    ∃ front, graph.Path entry front earlier ∧ front.length < passed.length := by
  obtain ⟨front, hfront, hsuffix⟩ := h.upTo hearlier
  refine ⟨front, hfront, Nat.lt_of_le_of_ne hsuffix.length_le fun hlength => ?_⟩
  obtain rfl := hsuffix.eq_of_length hlength
  -- both are the head of the same list
  cases h <;> cases hfront <;> exact hne rfl

/-- A path to a node other than the entry arrives there for the first time over some edge. -/
theorem firstArrival {passed : List Nat} {node : Nat} (h : graph.Path entry passed node) (hne : node ≠ entry) :
    ∃ front last, graph.Path entry front last ∧ node ∈ graph.successors last ∧ node ∉ front ∧ front ⊆ passed := by
  induction hlength : passed.length using Nat.strong_induction_on generalizing passed with
  | _ length ih =>
    subst hlength
    cases h with
    | start => exact absurd rfl hne
    | @step passed last _ hpath hnext _ =>
      by_cases hmem : node ∈ passed
      · obtain ⟨front, hfront, hsuffix⟩ := hpath.upTo hmem
        obtain ⟨first, last, hfirst, hedge, hfresh, hsubset⟩ :=
          ih front.length (Nat.lt_succ_of_le hsuffix.length_le) hfront rfl
        exact ⟨first, last, hfirst, hedge, hfresh,
          fun _ h => List.mem_cons_of_mem _ (hsuffix.subset (hsubset h))⟩
      · exact ⟨passed, last, hpath, hnext, hmem, List.subset_cons_self _ _⟩

end Path

theorem Reachable.step {node next : Nat} (h : graph.Reachable entry node) (hnext : next ∈ graph.successors node)
    (hlt : next < graph.size) : graph.Reachable entry next := by
  obtain ⟨passed, hpath⟩ := h
  exact ⟨next :: passed, hpath.step hnext hlt⟩

private theorem Reachable.of_mem_path {passed : List Nat} {node earlier : Nat} (h : graph.Path entry passed node)
    (hearlier : earlier ∈ passed) : graph.Reachable entry earlier := by
  obtain ⟨front, hfront, -⟩ := h.upTo hearlier
  exact ⟨front, hfront⟩

theorem Reachable.entry_lt {node : Nat} (h : graph.Reachable entry node) : entry < graph.size :=
  h.elim fun _ hpath => hpath.entry_lt

/-! ### Dominance -/

theorem Dominates.refl (node : Nat) : graph.Dominates entry node node :=
  fun _ hpath => hpath.target_mem

theorem entry_dominates (node : Nat) : graph.Dominates entry entry node :=
  fun _ hpath => hpath.entry_mem

theorem Dominates.trans {upper middle lower : Nat} (hupper : graph.Dominates entry upper middle)
    (hlower : graph.Dominates entry middle lower) : graph.Dominates entry upper lower := by
  intro passed hpath
  obtain ⟨front, hfront, hsuffix⟩ := hpath.upTo (hlower passed hpath)
  exact hsuffix.subset (hupper front hfront)

theorem Dominates.reachable {upper lower : Nat} (h : graph.Dominates entry upper lower)
    (hlower : graph.Reachable entry lower) : graph.Reachable entry upper := by
  obtain ⟨passed, hpath⟩ := hlower
  exact .of_mem_path hpath (h passed hpath)

/-- Two nodes that dominate each other are one, or each path to the one would hold a shorter path to it. -/
theorem Dominates.antisymm {left right : Nat} (hleft : graph.Dominates entry left right)
    (hright : graph.Dominates entry right left) (hreachable : graph.Reachable entry right) : left = right := by
  obtain ⟨passed, hpath⟩ := hreachable
  induction hlength : passed.length using Nat.strong_induction_on generalizing passed with
  | _ length ih =>
    subst hlength
    by_contra hne
    obtain ⟨front, hfront, hlt⟩ := hpath.upTo_lt (hleft passed hpath) hne
    obtain ⟨first, hfirst, hless⟩ := hfront.upTo_lt (hright front hfront) (Ne.symm hne)
    exact hne (ih first.length (hless.trans hlt) first hfirst rfl)

/-- What dominates a node from above dominates every node with an edge to it. -/
theorem Dominates.of_edge {upper node next : Nat} (h : graph.Dominates entry upper next) (hne : upper ≠ next)
    (hnext : next ∈ graph.successors node) (hlt : next < graph.size) : graph.Dominates entry upper node := by
  intro passed hpath
  exact (List.mem_cons.1 (h _ (hpath.step hnext hlt))).resolve_left hne

/-- The only node with an edge to another one dominates it, and so does what dominates it. -/
theorem Dominates.of_only_edge {upper node next : Nat} (h : graph.Dominates entry upper node) (hentry : next ≠ entry)
    (honly : ∀ other, other < graph.size → next ∈ graph.successors other → other = node) :
    graph.Dominates entry upper next := by
  intro passed hpath
  cases hpath with
  | start => exact absurd rfl hentry
  | step hfront hedge _ =>
    obtain rfl := honly _ hfront.target_lt hedge
    exact List.mem_cons_of_mem _ (h _ hfront)

end Bytecode.Digraph
