import Bytecode.Proofs.Graph.DominatorIteration
/-!
# The tree of immediate dominators

In a graph whose predecessor lists are the inverse of its edges, the settled parents are the immediate dominators. Every
position but the first has a predecessor that the search opened before it, so the iteration settles, and then the
ancestors of a node are its dominators: along a path each ancestor of a node is an ancestor of the node before it or the
node itself, and no strict dominator is missed because no parent is ever too high.
-/

namespace Bytecode

open Bytecode.Digraph Dominators

namespace DominatorTree

variable {graph : Digraph} {entry : Nat}

/-! ### Positions and nodes -/

theorem idxOf?_reversePostorder {position node : Nat} :
    (graph.reversePostorder entry).idxOf? node = some position ↔
      (graph.reversePostorder entry)[position]? = some node := by
  constructor
  · intro h
    obtain ⟨hlt, hget, -⟩ := List.idxOf?_eq_some_iff.1 h
    exact List.getElem?_eq_some_iff.2 ⟨hlt, hget⟩
  · intro h
    cases hindex : (graph.reversePostorder entry).idxOf? node with
    | none => exact absurd (List.mem_of_getElem? h) (List.idxOf?_eq_none_iff.1 hindex)
    | some found =>
      obtain ⟨hlt, hget, -⟩ := List.idxOf?_eq_some_iff.1 hindex
      rw [position_unique (List.getElem?_eq_some_iff.2 ⟨hlt, hget⟩) h]

theorem exists_position {node : Nat} (h : graph.Reachable entry node) :
    ∃ position : Nat, (graph.reversePostorder entry)[position]? = some node :=
  List.mem_iff_getElem?.1 (mem_reversePostorder_iff.2 h)

theorem reachable_of_position {position node : Nat} (h : (graph.reversePostorder entry)[position]? = some node) :
    graph.Reachable entry node :=
  mem_reversePostorder_iff.1 (List.mem_of_getElem? h)

/-- The entry comes first. -/
theorem entry_first {node : Nat} (h : (graph.reversePostorder entry)[0]? = some node) : node = entry :=
  (eq_of_dominates_first h (entry_dominates node)).symm

/-- The predecessors of a position, as the iteration sees them. -/
def positionPredecessors (graph : Digraph) (entry position : Nat) : List Nat :=
  match (graph.reversePostorder entry)[position]? with
  | none => []
  | some node => (graph.predecessors node).filterMap (graph.reversePostorder entry).idxOf?

private theorem parents_ofGraph (graph : Digraph) (entry : Nat) :
    (ofGraph graph entry).parents
      = settle (positionPredecessors graph entry) (initial (graph.reversePostorder entry).length) :=
  rfl

private theorem mem_positionPredecessors {position node other source : Nat}
    (hnode : (graph.reversePostorder entry)[position]? = some node)
    (hsource : (graph.reversePostorder entry)[other]? = some source) (hmem : source ∈ graph.predecessors node) :
    other ∈ positionPredecessors graph entry position := by
  rw [positionPredecessors, hnode]
  exact List.mem_filterMap.2 ⟨source, hmem, idxOf?_reversePostorder.2 hsource⟩

private theorem entered_positions (h : graph.PredecessorsInverse) :
    Entered (positionPredecessors graph entry) (graph.reversePostorder entry).length := by
  intro position hpositive hlt
  obtain ⟨node, hnode⟩ : ∃ node, (graph.reversePostorder entry)[position]? = some node :=
    ⟨_, List.getElem?_eq_getElem hlt⟩
  have hne : node ≠ entry := by
    rintro rfl
    obtain ⟨first, hfirst⟩ : ∃ first, (graph.reversePostorder node)[0]? = some first :=
      ⟨_, List.getElem?_eq_getElem (Nat.zero_lt_of_lt hlt)⟩
    exact hpositive (position_unique hnode (entry_first hfirst ▸ hfirst))
  have hsplit : graph.reversePostorder entry = (graph.reversePostorder entry).take position ++
      node :: (graph.reversePostorder entry).drop (position + 1) := by
    rw [← (List.getElem?_eq_some_iff.1 hnode).2, ← List.drop_eq_getElem_cons hlt, List.take_append_drop]
  obtain ⟨source, hsource, hedge⟩ := predecessor_before hsplit hne
  obtain ⟨earlier, hearlier⟩ := List.mem_iff_getElem?.1 hsource
  have hless : earlier < position := by
    have hbound := (List.getElem?_eq_some_iff.1 hearlier).1
    rw [List.length_take] at hbound
    omega
  rw [List.getElem?_take_of_lt hless] at hearlier
  obtain ⟨_, hpath⟩ := reachable_of_position hearlier
  obtain ⟨_, hpathNode⟩ := reachable_of_position hnode
  have hmem := (h source node).2 ⟨hpath.target_lt, hpathNode.target_lt, hedge⟩
  exact ⟨earlier, mem_positionPredecessors hnode hearlier hmem, hless⟩

/-! ### The settled tree -/

private theorem length_pos (hentry : entry < graph.size) : 0 < (graph.reversePostorder entry).length :=
  List.length_pos_of_mem (mem_reversePostorder_iff.2 ⟨[entry], .start hentry⟩)

/-- The parents of the finished tree: nothing is left to improve. -/
structure Settled (graph : Digraph) (entry : Nat) : Prop where
  length : (ofGraph graph entry).parents.length = (graph.reversePostorder entry).length
  converging : Converging (positionPredecessors graph entry) (ofGraph graph entry).parents.length
    (ofGraph graph entry).parents
  stable : Stable (positionPredecessors graph entry) 1 (ofGraph graph entry).parents
  fixed : sweep (positionPredecessors graph entry) (ofGraph graph entry).parents = (ofGraph graph entry).parents
  iterated : ∃ sweeps, (ofGraph graph entry).parents
    = (sweep (positionPredecessors graph entry))^[sweeps] (initial (graph.reversePostorder entry).length)

theorem settled (h : graph.PredecessorsInverse) (hentry : entry < graph.size) : Settled graph entry := by
  have hlength : (initial (graph.reversePostorder entry).length).length = (graph.reversePostorder entry).length := by
    rw [initial, List.length_set, List.length_replicate]
  obtain ⟨sweeps, hiterated, hsame, hconverging, hstable, hfixed⟩ :=
    (Converging.initial (positionPredecessors graph entry) (length_pos hentry)).settle
      (hlength.symm ▸ entered_positions h)
  rw [← parents_ofGraph] at hiterated hsame hconverging hstable hfixed
  exact ⟨hsame.trans hlength, hsame ▸ hconverging, hstable, hfixed, sweeps, hiterated⟩

namespace Settled

variable (hsettled : Settled graph entry)

include hsettled

private theorem exists_parent {position : Nat} (hlt : position < (graph.reversePostorder entry).length) :
    ∃ up, parent? (ofGraph graph entry).parents position = some up :=
  Option.isSome_iff_exists.1 (hsettled.converging.placed position (hsettled.length.symm ▸ hlt))

/-- On the way to a node every ancestor of it is passed. -/
theorem dominates_of_ancestor (h : graph.PredecessorsInverse) {high low upper lower : Nat}
    (hupper : (graph.reversePostorder entry)[high]? = some upper)
    (hlower : (graph.reversePostorder entry)[low]? = some lower)
    (habove : Ancestor (ofGraph graph entry).parents high low) : graph.Dominates entry upper lower := by
  intro passed hpath
  -- an ancestor of the first position is the entry itself
  have hfirst : high = 0 → upper = entry := fun hzero => entry_first (hzero ▸ hupper)
  induction hpath generalizing low with
  | start hentry =>
    obtain ⟨first, hget⟩ : ∃ first, (graph.reversePostorder entry)[0]? = some first :=
      ⟨_, List.getElem?_eq_getElem (length_pos hentry)⟩
    obtain rfl : low = 0 := position_unique hlower (entry_first hget ▸ hget)
    rw [hfirst (Nat.le_zero.1 habove.le)]
    exact List.mem_singleton_self _
  | @step passed node next hpath hedge hlt ih =>
    by_cases hzero : low = 0
    · subst hzero
      rw [hfirst (Nat.le_zero.1 habove.le)]
      exact List.mem_cons_of_mem _ hpath.entry_mem
    · obtain ⟨up, hparent⟩ := hsettled.exists_parent (List.getElem?_eq_some_iff.1 hlower).1
      rcases habove.eq_or_parent hparent with rfl | hup
      · obtain rfl := Option.some.inj (hupper.symm.trans hlower)
        exact List.mem_cons_self
      · -- the node before is among the predecessors, and they share all that is above the parent
        obtain ⟨before, hbefore⟩ := exists_position ⟨passed, hpath⟩
        have hmem := mem_positionPredecessors hlower hbefore ((h node next).2 ⟨hpath.target_lt, hlt, hedge⟩)
        have hplaced : Placed (ofGraph graph entry).parents before :=
          hsettled.converging.placed before (hsettled.length.symm ▸ (List.getElem?_eq_some_iff.1 hbefore).1)
        have hshared := (hsettled.converging.ancestor_parent_iff (hsettled.length.symm ▸ entered_positions h)
          hsettled.stable hzero hparent high).1 hup
        exact List.mem_cons_of_mem _ (ih hbefore (hshared before hmem hplaced))

/-- A strict dominator dominates the parent, which comes before the node. -/
theorem parent_spec (h : graph.PredecessorsInverse) {position node : Nat}
    (hnode : (graph.reversePostorder entry)[position]? = some node) (hpositive : position ≠ 0) :
    ∃ up parent, parent? (ofGraph graph entry).parents position = some up ∧ up < position ∧
      (graph.reversePostorder entry)[up]? = some parent ∧
      ∀ upper, graph.Dominates entry upper node → upper ≠ node → graph.Dominates entry upper parent := by
  have hlt := (List.getElem?_eq_some_iff.1 hnode).1
  obtain ⟨up, hparent⟩ := hsettled.exists_parent hlt
  have hless := hsettled.converging.rooted.smaller position up hparent hpositive
  refine ⟨up, _, hparent, hless, List.getElem?_eq_getElem (hless.trans hlt), fun upper hdominates hne => ?_⟩
  obtain ⟨parent, hget, hbelow⟩ := noneTooHigh_ofGraph h.sound position up hparent node hnode upper hdominates hne
  rwa [(List.getElem?_eq_some_iff.1 hget).2]

private theorem ancestor_of_dominates (h : graph.PredecessorsInverse) {high low upper lower : Nat}
    (hupper : (graph.reversePostorder entry)[high]? = some upper)
    (hlower : (graph.reversePostorder entry)[low]? = some lower) (hdominates : graph.Dominates entry upper lower) :
    Ancestor (ofGraph graph entry).parents high low := by
  induction low using Nat.strong_induction_on generalizing lower with
  | _ low ih =>
    by_cases heq : upper = lower
    · subst heq
      rw [position_unique hupper hlower]
      exact .refl
    · have hpositive : low ≠ 0 := by
        rintro rfl
        exact heq (eq_of_dominates_first hlower hdominates)
      obtain ⟨up, parent, hparent, hless, hget, hstrict⟩ := hsettled.parent_spec h hlower hpositive
      exact .up hparent hless (ih up hless hget (hstrict upper hdominates heq))

end Settled

/-! ### What the tree answers -/

private theorem mem_ancestors_iff {tree : DominatorTree} {high low : Nat} :
    high ∈ tree.ancestors low ↔ Ancestor tree.parents high low := by
  induction low using Nat.strong_induction_on with
  | _ low ih =>
    rw [ancestors, List.mem_cons]
    constructor
    · rintro (rfl | hmem)
      · exact .refl
      · split at hmem
        · next up hparent =>
          split at hmem
          · next hlt =>
            rw [parentPosition?] at hparent
            split at hparent
            · cases hparent
            · exact .up hparent hlt ((ih up hlt).1 hmem)
          · exact absurd hmem List.not_mem_nil
        · exact absurd hmem List.not_mem_nil
    · intro habove
      cases habove with
      | refl => exact .inl rfl
      | @up _ up hparent hlt habove =>
        right
        rw [parentPosition?, if_neg (Nat.ne_zero_of_lt hlt), hparent]
        simp only [hlt, if_true]
        exact (ih up hlt).2 habove

private theorem isReachable_iff {node : Nat} :
    (ofGraph graph entry).isReachable node = true ↔ graph.Reachable entry node := by
  rw [isReachable, List.contains_iff_mem]
  exact mem_reversePostorder_iff

theorem dominates_iff (h : graph.PredecessorsInverse) {upper lower : Nat} :
    (ofGraph graph entry).dominates upper lower = true ↔
      graph.Reachable entry lower ∧ graph.Dominates entry upper lower := by
  constructor
  · intro hdominates
    rw [dominates] at hdominates
    split at hdominates
    · next high low hhigh hlow =>
      have hupper := idxOf?_reversePostorder.1 hhigh
      have hlower := idxOf?_reversePostorder.1 hlow
      have hreachable := reachable_of_position hlower
      rw [List.contains_iff_mem, mem_ancestors_iff] at hdominates
      exact ⟨hreachable, (settled h hreachable.entry_lt).dominates_of_ancestor h hupper hlower hdominates⟩
    · cases hdominates
  · rintro ⟨hreachable, hdominates⟩
    obtain ⟨low, hlower⟩ := exists_position hreachable
    obtain ⟨high, hupper⟩ := exists_position (hdominates.reachable hreachable)
    have habove := (settled h hreachable.entry_lt).ancestor_of_dominates h hupper hlower hdominates
    have hhigh : (ofGraph graph entry).order.idxOf? upper = some high := idxOf?_reversePostorder.2 hupper
    have hlow : (ofGraph graph entry).order.idxOf? lower = some low := idxOf?_reversePostorder.2 hlower
    rw [dominates, hhigh, hlow]
    exact List.contains_iff_mem.2 (mem_ancestors_iff.2 habove)

/-- The immediate dominator is the lowest of the strict dominators. -/
theorem exists_immediateDominator (h : graph.PredecessorsInverse) {node : Nat} (hreachable : graph.Reachable entry node)
    (hne : node ≠ entry) :
    ∃ parent, (ofGraph graph entry).immediateDominator? node = some parent ∧ parent ≠ node ∧
      graph.Dominates entry parent node ∧
      ∀ upper, upper ≠ node → graph.Dominates entry upper node → graph.Dominates entry upper parent := by
  obtain ⟨position, hnode⟩ := exists_position hreachable
  have hpositive : position ≠ 0 := by
    rintro rfl
    exact hne (entry_first hnode)
  have hsettled := settled h hreachable.entry_lt
  obtain ⟨up, parent, hparent, hless, hget, hstrict⟩ := hsettled.parent_spec h hnode hpositive
  refine ⟨parent, ?_, ?_, hsettled.dominates_of_ancestor h hget hnode (.up hparent hless .refl), ?_⟩
  · have hposition : (ofGraph graph entry).order.idxOf? node = some position := idxOf?_reversePostorder.2 hnode
    have hup : (ofGraph graph entry).parentPosition? position = some up := by
      rw [parentPosition?, if_neg hpositive, hparent]
    rw [immediateDominator?, hposition, Option.bind_eq_bind, Option.bind_some, hup]
    exact hget
  · rintro rfl
    exact absurd (position_unique hget hnode) (Nat.ne_of_lt hless)
  · exact fun upper hupper hdominates => hstrict upper hdominates hupper

/-- On every graph the iteration ends, the tree knows which nodes can be reached, its answers are the dominators of the
graph, and the parent of a node is its immediate dominator. From an entry outside the graph nothing is reached. -/
theorem ofGraph_finds_dominators (graph : Digraph) (hinverse : graph.PredecessorsInverse) (entry : Nat) :
    (entry < graph.size →
      (∃ sweeps, (ofGraph graph entry).parents
          = (sweep (positionPredecessors graph entry))^[sweeps] (initial (ofGraph graph entry).order.length)) ∧
        sweep (positionPredecessors graph entry) (ofGraph graph entry).parents = (ofGraph graph entry).parents ∧
        (∀ node, (ofGraph graph entry).isReachable node = true ↔ graph.Reachable entry node) ∧
        (∀ upper lower, (ofGraph graph entry).dominates upper lower = true ↔
          graph.Reachable entry lower ∧ graph.Dominates entry upper lower) ∧
        ∀ node, graph.Reachable entry node → node ≠ entry →
          ∃ parent, (ofGraph graph entry).immediateDominator? node = some parent ∧ parent ≠ node ∧
            graph.Dominates entry parent node ∧
            ∀ upper, upper ≠ node → graph.Dominates entry upper node → graph.Dominates entry upper parent) ∧
    (graph.size ≤ entry →
      ∀ upper lower, (ofGraph graph entry).isReachable lower = false ∧
        (ofGraph graph entry).dominates upper lower = false) := by
  constructor
  · intro hentry
    have hsettled := settled hinverse hentry
    refine ⟨hsettled.iterated, hsettled.fixed, fun _ => isReachable_iff, fun _ _ => dominates_iff hinverse, ?_⟩
    exact fun node hreachable hne => exists_immediateDominator hinverse hreachable hne
  · intro hentry upper lower
    have hnone : ¬ graph.Reachable entry lower := fun hreachable => absurd hreachable.entry_lt (Nat.not_lt_of_le hentry)
    refine ⟨Bool.eq_false_iff.2 fun h => hnone (isReachable_iff.1 h), Bool.eq_false_iff.2 fun h => ?_⟩
    exact hnone ((dominates_iff hinverse).1 h).1

/-- A loop that is entered at two nodes, with a repeated edge, a node that leads to itself and one that nothing leads
to. -/
def loopEnteredTwice : Digraph :=
  ofEdges 5 [(0, 1), (0, 2), (1, 2), (2, 1), (2, 1), (1, 3), (3, 3), (4, 3)]

theorem ofGraph_finds_dominators_of_loopEnteredTwice :
    loopEnteredTwice.PredecessorsInverse ∧ 0 < loopEnteredTwice.size ∧
      (∀ node, (ofGraph loopEnteredTwice 0).isReachable node = true ↔ loopEnteredTwice.Reachable 0 node) ∧
      ∀ upper lower, (ofGraph loopEnteredTwice 0).dominates upper lower = true ↔
        loopEnteredTwice.Reachable 0 lower ∧ loopEnteredTwice.Dominates 0 upper lower := by
  have hinverse : loopEnteredTwice.PredecessorsInverse := predecessorsInverse_ofEdges (by decide)
  have hentry : 0 < loopEnteredTwice.size := by decide
  obtain ⟨-, -, hreachable, hdominates, -⟩ := (ofGraph_finds_dominators loopEnteredTwice hinverse 0).1 hentry
  exact ⟨hinverse, hentry, hreachable, hdominates⟩

/-! ### The preorder -/

private theorem child_mem_subtree {tree : DominatorTree} {root position child : Nat} (h : position ∈ tree.subtree root)
    (hchild : child ∈ tree.childPositions position) : child ∈ tree.subtree root := by
  induction root using subtree.induct tree with
  | case1 root ih =>
    rw [subtree_eq, List.mem_cons, List.mem_flatMap] at h ⊢
    rcases h with rfl | ⟨next, hnext, hmem⟩
    · refine .inr ⟨child, hchild, ?_⟩
      rw [subtree_eq]
      exact List.mem_cons_self
    · exact .inr ⟨next, hnext, ih next hnext hmem⟩

private theorem mem_subtree_of_ancestor {tree : DominatorTree} {root position : Nat}
    (habove : Ancestor tree.parents root position) (hlt : position < tree.order.length) :
    position ∈ tree.subtree root := by
  induction habove with
  | refl =>
    rw [subtree_eq]
    exact List.mem_cons_self
  | @up low up hparent hless _ ih =>
    refine child_mem_subtree (ih (hless.trans hlt)) (mem_childPositions.2 ⟨hlt, hless, ?_⟩)
    rw [parentPosition?, if_neg (Nat.ne_zero_of_lt hless), hparent]

/-- The preorder lists every node that can be reached. -/
theorem mem_preorder_of_reachable (h : graph.PredecessorsInverse) {node : Nat}
    (hreachable : graph.Reachable entry node) : node ∈ (ofGraph graph entry).preorder := by
  obtain ⟨position, hnode⟩ := exists_position hreachable
  have hlt := (List.getElem?_eq_some_iff.1 hnode).1
  have hsettled := settled h hreachable.entry_lt
  have hplaced := hsettled.converging.placed position (hsettled.length.symm ▸ hlt)
  have hmem := mem_subtree_of_ancestor (hsettled.converging.rooted.zero_ancestor hplaced) hlt
  rw [preorder, if_neg]
  · exact List.mem_filterMap.2 ⟨position, hmem, hnode⟩
  · rw [List.isEmpty_iff_length_eq_zero]
    exact Nat.ne_of_gt (Nat.zero_lt_of_lt hlt)

end DominatorTree

end Bytecode
