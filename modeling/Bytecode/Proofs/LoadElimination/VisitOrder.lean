import Bytecode.Proofs.LoadElimination.Course
import Bytecode.Proofs.LoadElimination.RepeatedRead
/-!
# The order of the visits

The preorder of the dominator tree lists what can be reached, each node once and after its strict dominators. The only
predecessor of a block that can be reached dominates the block, and it is another block, or no path would arrive there for
the first time. So the sweep visits it before the block. What it leaves for the block then waits until the block is
visited: no other block has an edge to it, and no other visit takes it away.
-/

namespace Bytecode

open Bytecode.Digraph

/-! ### The only predecessor of a block -/

namespace Body

variable {body : Body} {block source : Nat}

theorem exists_edge_of_predecessors (honly : body.predecessors block = [source]) :
    block < body.blocks.length ∧ ∃ left, body.block? source = some left ∧ block ∈ left.allSuccessors := by
  apply mem_predecessors.1
  rw [honly]
  exact List.mem_cons_self

/-- A block that can be reached is not its own only predecessor. -/
theorem ne_of_only_predecessor (honly : body.predecessors block = [source]) (hentry : block ≠ 0)
    (hreachable : body.Reachable block) : source ≠ block := by
  obtain ⟨passed, hpath⟩ := hreachable
  obtain ⟨front, last, hfront, hedge, hfresh, -⟩ := hpath.firstArrival hentry
  have hlast : last ∈ body.predecessors block :=
    mem_predecessors.2 ⟨(exists_edge_of_predecessors honly).1, mem_flowGraph_successors.1 hedge⟩
  rw [honly, List.mem_singleton] at hlast
  intro heq
  apply hfresh
  rw [← heq, ← hlast]
  exact hfront.target_mem

end Body

namespace LoadElimination

variable {scope : Scope} {body : Body} {block source : Nat}

/-- The only predecessor of a block is visited before it. -/
theorem only_predecessor_before (honly : body.predecessors block = [source]) (hentry : block ≠ 0)
    {before after : List Nat} (horder : visitOrder body = before ++ block :: after) : source ∈ before := by
  obtain ⟨hlt, left, hleft, hsuccessor⟩ := Body.exists_edge_of_predecessors honly
  have hdominates : body.Dominates source block :=
    dominates_of_only_predecessor (Digraph.Dominates.refl source) hentry hleft hsuccessor (by rw [honly]; rfl) hlt
  exact DominatorTree.dominator_before_in_preorder body.flowGraph_predecessorsSound horder hdominates
    (Body.ne_of_only_predecessor honly hentry (reachable_of_visitOrder horder))

/-! ### The facts that wait for a block -/

/-- The only predecessor leaves for a block what it passes on at its end. -/
theorem find?_propagate_of_only_predecessor (scope : Scope) {swept : Body} (hflow : body.SameFlow swept)
    (honly : body.predecessors block = [source]) (facts : Facts) (waiting : Waiting) :
    ∃ left, swept.block? source = some left ∧
      (propagate scope swept source facts waiting).find? block = some (passedFacts scope swept left facts block) := by
  rw [← hflow.predecessors_eq] at honly
  obtain ⟨-, left, hleft, hsuccessor⟩ := Body.exists_edge_of_predecessors honly
  refine ⟨left, hleft, ?_⟩
  rw [find?_propagate_eq hleft, if_pos ⟨hsuccessor, by rw [honly]; rfl⟩]

/-- Any other block leaves what waits for the block as it is. -/
theorem find?_propagate_of_other {swept : Body} (hflow : body.SameFlow swept)
    (honly : body.predecessors block = [source]) {other : Nat} (hother : other ≠ source) (hne : other ≠ block)
    (facts : Facts) (waiting : Waiting) :
    (propagate scope swept other facts (waiting.erase other)).find? block = waiting.find? block := by
  have herase : (waiting.erase other).find? block = waiting.find? block := by
    rw [Table.find?_erase, if_neg (Ne.symm hne)]
  cases htarget : swept.block? other with
  | none => rw [propagate, htarget, herase]
  | some target =>
    rw [find?_propagate_eq htarget, if_neg, herase]
    intro hpasses
    have hmem : other ∈ swept.predecessors block := by
      rw [← hflow.predecessors_eq] at honly
      exact Body.mem_predecessors.2 ⟨(Body.exists_edge_of_predecessors honly).1, target, htarget, hpasses.1⟩
    rw [hflow.predecessors_eq, honly, List.mem_singleton] at hmem
    exact hother hmem

/-- While other blocks are visited, what waits for a block stays. -/
theorem find?_foldlM_visitBlock {before between after : List Nat} (honly : body.predecessors block = [source])
    (horder : visitOrder body = before ++ source :: between ++ block :: after) {state last : Sweep × Waiting}
    (hstate : (before ++ [source]).foldlM (visitBlock scope) ({ body }, .empty) = .ok state)
    (hrun : between.foldlM (visitBlock scope) state = .ok last) : last.2.find? block = state.2.find? block := by
  have hnodup : (visitOrder body).Nodup := DominatorTree.preorder_nodup _ _
  -- the visits so far are carried along, since it is their states that keep the flow of control
  refine (foldlM_reaches (fun visited (reached : Sweep × Waiting) =>
    (before ++ source :: visited).foldlM (visitBlock scope) ({ body }, .empty) = .ok reached ∧
      reached.2.find? block = state.2.find? block) hrun ⟨hstate, rfl⟩ ?_).2
  rintro visited other later ⟨sweep, waiting⟩ next rfl ⟨hvisited, hsame⟩ hvisit
  have hlonger : (before ++ source :: (visited ++ [other])).foldlM (visitBlock scope) ({ body }, .empty) = .ok next := by
    have hsplit : before ++ source :: (visited ++ [other]) = (before ++ source :: visited) ++ [other] := by simp
    rw [hsplit]
    exact foldlM_concat hvisited hvisit
  have hplace : visitOrder body = (before ++ source :: (visited ++ [other])) ++ (later ++ block :: after) := by
    simpa using horder
  have hreached := foldlM_visitBlock_reached hplace hlonger
  obtain ⟨swept, facts, -, rfl⟩ := visitBlock_eq_ok hvisit
  refine ⟨hlonger, Eq.trans ?_ hsame⟩
  rw [horder] at hnodup
  apply find?_propagate_of_other hreached.sameFlow.1 honly
  · rintro rfl
    simp [List.nodup_append] at hnodup
  · rintro rfl
    simp [List.nodup_append] at hnodup

/-- When the sweep comes to a block, what waits for it is what its only predecessor passed on at its end. -/
theorem find?_of_only_predecessor {before between after : List Nat} (honly : body.predecessors block = [source])
    (horder : visitOrder body = before ++ source :: between ++ block :: after) {sweep : Sweep} {waiting : Waiting}
    (hrun : (before ++ source :: between).foldlM (visitBlock scope) ({ body }, .empty) = .ok (sweep, waiting)) :
    ∃ earlier pending swept facts left,
      before.foldlM (visitBlock scope) ({ body }, .empty) = .ok (earlier, pending) ∧
      sweepBlock scope source (blockLength earlier.body source) 0 earlier ((pending.find? source).getD {})
        = .ok (swept, facts) ∧
      swept.body.block? source = some left ∧ waiting.find? block = some (passedFacts scope swept.body left facts block) := by
  rw [List.foldlM_append] at hrun
  obtain ⟨⟨earlier, pending⟩, hbefore, hrest⟩ := exists_of_bind_eq_ok hrun
  rw [List.foldlM_cons] at hrest
  obtain ⟨state, hvisit, hbetween⟩ := exists_of_bind_eq_ok hrest
  have hstate : (before ++ [source]).foldlM (visitBlock scope) ({ body }, .empty) = .ok state :=
    foldlM_concat hbefore hvisit
  have hplace : visitOrder body = (before ++ [source]) ++ (between ++ block :: after) := by
    simpa using horder
  have hwaits := find?_foldlM_visitBlock honly horder hstate hbetween
  have hreached := foldlM_visitBlock_reached hplace hstate
  obtain ⟨swept, facts, hswept, rfl⟩ := visitBlock_eq_ok hvisit
  obtain ⟨left, hleft, hfound⟩ :=
    find?_propagate_of_only_predecessor scope hreached.sameFlow.1 honly facts (pending.erase source)
  exact ⟨earlier, pending, swept, facts, left, hbefore, hswept, hleft, hwaits.trans hfound⟩

/-- The preorder of the dominator tree lists exactly what can be reached, each node once and after its strict dominators. So
a block other than the entry that can be reached and has one predecessor is visited after it, and what waits for the block
when the sweep comes to it is all that the predecessor passed on. -/
theorem dominators_visited_first :
    (∀ (graph : Digraph) (entry : Nat), graph.PredecessorsInverse → entry < graph.size →
      (DominatorTree.ofGraph graph entry).preorder.Nodup ∧
      (∀ node, node ∈ (DominatorTree.ofGraph graph entry).preorder ↔ graph.Reachable entry node) ∧
      ∀ before node after, (DominatorTree.ofGraph graph entry).preorder = before ++ node :: after →
        ∀ upper, graph.Dominates entry upper node → upper ≠ node → upper ∈ before) ∧
    ∀ (body : Body) (block source : Nat), body.Reachable block → block ≠ 0 → body.predecessors block = [source] →
      ∃ before between after, visitOrder body = before ++ source :: between ++ block :: after ∧
        ∀ scope sweep waiting,
          (before ++ source :: between).foldlM (visitBlock scope) ({ body }, .empty) = .ok (sweep, waiting) →
          ∃ earlier pending swept facts left,
            before.foldlM (visitBlock scope) ({ body }, .empty) = .ok (earlier, pending) ∧
            sweepBlock scope source (blockLength earlier.body source) 0 earlier ((pending.find? source).getD {})
              = .ok (swept, facts) ∧
            swept.body.block? source = some left ∧
            waiting.find? block = some (passedFacts scope swept.body left facts block) := by
  refine ⟨fun graph entry hinverse _ => ⟨DominatorTree.preorder_nodup graph entry, fun node => ?_, ?_⟩, ?_⟩
  · exact ⟨DominatorTree.reachable_of_mem_preorder, DominatorTree.mem_preorder_of_reachable hinverse⟩
  · intro before node after hsplit upper hdominates hne
    exact DominatorTree.dominator_before_in_preorder hinverse.sound hsplit hdominates hne
  · intro body block source hreachable hentry honly
    obtain ⟨done, after, horder⟩ :=
      List.append_of_mem (DominatorTree.mem_preorder_of_reachable body.flowGraph_predecessorsInverse hreachable)
    obtain ⟨before, between, rfl⟩ := List.append_of_mem (only_predecessor_before honly hentry horder)
    exact ⟨before, between, after, horder, fun scope sweep waiting hrun => find?_of_only_predecessor honly horder hrun⟩

/-- A loop back to the entry, with a way out of it and a block that leads into it but cannot be reached. -/
def loopToEntry : Body :=
  { method := ⟨0⟩
    values := [{}]
    blocks :=
      [{ instructions := [{ operation := .constNumber ⟨0⟩ 1 }, { operation := .goto }], successors := [1] },
        { instructions := [{ operation := .branch .eq ⟨0⟩ none }], successors := [2, 0] },
        { instructions := [{ operation := .return none }] },
        { instructions := [{ operation := .goto }], successors := [1] }] }

theorem dominators_visited_first_of_loopToEntry :
    loopToEntry.predecessors 0 = [1] ∧ loopToEntry.predecessors 1 = [0, 3] ∧ loopToEntry.predecessors 2 = [1] ∧
      (∀ node, node ∈ visitOrder loopToEntry ↔ loopToEntry.Reachable node) ∧ loopToEntry.Reachable 2 ∧
      ∃ before between after, visitOrder loopToEntry = before ++ 1 :: between ++ 2 :: after := by
  have honly : loopToEntry.predecessors 2 = [1] := by decide
  obtain ⟨hgraph, hbody⟩ := dominators_visited_first
  obtain ⟨-, hlisted, -⟩ := hgraph loopToEntry.flowGraph 0 loopToEntry.flowGraph_predecessorsInverse (by decide)
  have hreachable : loopToEntry.Reachable 2 := (hlisted 2).1 (by decide +kernel)
  obtain ⟨before, between, after, horder, -⟩ := hbody loopToEntry 2 1 hreachable (by decide) honly
  exact ⟨by decide, by decide, honly, hlisted, hreachable, before, between, after, horder⟩

end LoadElimination

end Bytecode
