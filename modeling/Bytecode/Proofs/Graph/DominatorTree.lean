import Bytecode.Graph.Dominators
import Bytecode.Proofs.Graph.Postorder
/-!
# The order of the dominator tree

Whatever the iteration has found so far, a node's parent is never too high: every strict dominator of the node dominates
its parent as well. That holds before the first sweep, and the nearest common ancestor of several nodes is dominated by
whatever dominates all of them, so every improvement keeps it. Hence all strict dominators of a node are among its
ancestors in the tree, and the preorder of the tree lists each node after them.
-/

namespace Bytecode

open Bytecode.Digraph

variable {graph : Digraph} {entry : Nat}

/-- The predecessor lists name only nodes with an edge. -/
def Digraph.PredecessorsSound (graph : Digraph) : Prop :=
  ∀ source target, source ∈ graph.predecessors target → target ∈ graph.successors source ∧ target < graph.size

/-- The predecessor lists hold exactly the edges inside the graph. -/
def Digraph.PredecessorsInverse (graph : Digraph) : Prop :=
  ∀ source target,
    source ∈ graph.predecessors target ↔ source < graph.size ∧ target < graph.size ∧ target ∈ graph.successors source

theorem Digraph.PredecessorsInverse.sound {graph : Digraph} (h : graph.PredecessorsInverse) : graph.PredecessorsSound :=
  fun source target hmem => ⟨((h source target).1 hmem).2.2, ((h source target).1 hmem).2.1⟩

theorem Digraph.predecessorsInverse_ofEdges {size : Nat} {edges : List (Nat × Nat)}
    (h : ∀ edge ∈ edges, edge.1 < size) : (ofEdges size edges).PredecessorsInverse := by
  intro source target
  by_cases htarget : target < size
  · simp only [ofEdges, htarget, if_true, List.mem_map, List.mem_filter, decide_eq_true_eq, true_and]
    constructor
    · rintro ⟨edge, ⟨hmem, hto⟩, rfl⟩
      exact ⟨h edge hmem, edge, ⟨hmem, rfl⟩, hto⟩
    · rintro ⟨-, edge, ⟨hmem, hfrom⟩, rfl⟩
      exact ⟨edge, ⟨hmem, rfl⟩, hfrom⟩
  · simp [ofEdges, htarget]

namespace Dominators

/-- A node at some position of the order that `upper` dominates. -/
def BelowAt (graph : Digraph) (entry upper position : Nat) : Prop :=
  ∃ node, (graph.reversePostorder entry)[position]? = some node ∧ graph.Dominates entry upper node

/-- No parent is too high: a strict dominator of a node dominates the parent. -/
def NoneTooHigh (graph : Digraph) (entry : Nat) (parents : Parents) : Prop :=
  ∀ position up, parent? parents position = some up → ∀ node, (graph.reversePostorder entry)[position]? = some node →
    ∀ upper, graph.Dominates entry upper node → upper ≠ node → BelowAt graph entry upper up

theorem position_unique {left right node : Nat} (hleft : (graph.reversePostorder entry)[left]? = some node)
    (hright : (graph.reversePostorder entry)[right]? = some node) : left = right := by
  obtain ⟨hlt, hget⟩ := List.getElem?_eq_some_iff.1 hleft
  obtain ⟨hlt', hget'⟩ := List.getElem?_eq_some_iff.1 hright
  exact (List.Nodup.getElem_inj_iff (reversePostorder_nodup graph entry)).1 (hget.trans hget'.symm)

private theorem position_lt_of_dominates {high low upper lower : Nat}
    (hhigh : (graph.reversePostorder entry)[high]? = some upper)
    (hlow : (graph.reversePostorder entry)[low]? = some lower) (hdominates : graph.Dominates entry upper lower)
    (hne : upper ≠ lower) : high < low := by
  obtain ⟨hlt, hget⟩ := List.getElem?_eq_some_iff.1 hlow
  have hsplit : graph.reversePostorder entry = (graph.reversePostorder entry).take low ++
      lower :: (graph.reversePostorder entry).drop (low + 1) := by
    rw [← hget, ← List.drop_eq_getElem_cons hlt, List.take_append_drop]
  have hbefore := dominator_before hsplit hdominates hne
  obtain ⟨index, hindex⟩ := List.mem_iff_getElem?.1 hbefore
  rw [List.getElem?_take] at hindex
  split at hindex
  · next hless =>
    rw [position_unique hhigh hindex]
    exact hless
  · cases hindex

/-- Nothing but the node itself dominates the first node. -/
theorem eq_of_dominates_first {node upper : Nat} (hnode : (graph.reversePostorder entry)[0]? = some node)
    (hdominates : graph.Dominates entry upper node) : upper = node := by
  by_contra hne
  cases horder : graph.reversePostorder entry with
  | nil => simp [horder] at hnode
  | cons first rest =>
    obtain rfl : first = node := by simpa [horder] using hnode
    have hsplit : graph.reversePostorder entry = [] ++ first :: rest := horder
    exact absurd (dominator_before hsplit hdominates hne) List.not_mem_nil

/-! ### Common ancestors -/

theorem BelowAt.meet {parents : Parents} (h : NoneTooHigh graph entry parents) {upper left right : Nat}
    (hleft : BelowAt graph entry upper left) (hright : BelowAt graph entry upper right) :
    BelowAt graph entry upper (meet parents left right) := by
  -- the deeper of two positions is not `upper` itself, which dominates the other one as well
  have hup : ∀ deep high up, high < deep → BelowAt graph entry upper deep → BelowAt graph entry upper high →
      parent? parents deep = some up → BelowAt graph entry upper up := by
    intro deep high up hlt hdeep hhigh hparent
    obtain ⟨low, hlow, hdominates⟩ := hdeep
    obtain ⟨other, hother, hdominates'⟩ := hhigh
    refine h deep up hparent low hlow upper hdominates ?_
    rintro rfl
    have hne : upper ≠ other := by
      rintro rfl
      exact absurd (position_unique hlow hother) (Nat.ne_of_gt hlt)
    exact absurd (position_lt_of_dominates hlow hother hdominates' hne) (Nat.not_lt_of_lt hlt)
  fun_induction Dominators.meet parents left right with
  | case1 => exact hleft
  | case2 left right _ hlt up hparent _ ih => exact ih (hup left right up hlt hleft hright hparent) hright
  | case3 => exact hright
  | case4 => exact hright
  | case5 left right hne hnlt up hparent _ ih =>
    exact ih hleft (hup right left up (by omega) hright hleft hparent)
  | case6 => exact hleft
  | case7 => exact hleft

theorem BelowAt.meetAll {parents : Parents} (h : NoneTooHigh graph entry parents) {upper found : Nat}
    {predecessors : List Nat} (hpredecessors : ∀ predecessor ∈ predecessors, BelowAt graph entry upper predecessor)
    (hfound : meetAll parents predecessors = some found) : BelowAt graph entry upper found := by
  -- what the fold has met so far lies below
  refine List.foldlRecOn (motive := fun known => ∀ current, known = some current → BelowAt graph entry upper current)
    predecessors _ (by simp) ?_ found hfound
  intro known hknown predecessor hmem current hcurrent
  split at hcurrent
  · exact hknown current hcurrent
  · cases known with
    | none =>
      obtain rfl := Option.some.inj hcurrent
      exact hpredecessors predecessor hmem
    | some known =>
      obtain rfl := Option.some.inj hcurrent
      exact (hpredecessors predecessor hmem).meet h (hknown known rfl)

/-! ### The iteration -/

theorem parent?_set {parents : Parents} {position other : Nat} {found up : Nat}
    (h : parent? (parents.set position (some found)) other = some up) :
    (other = position ∧ up = found) ∨ parent? parents other = some up := by
  rw [parent?, List.getElem?_set] at h
  split at h
  · next heq =>
    split at h
    · exact .inl ⟨heq.symm, (Option.some.inj h).symm⟩
    · cases h
  · exact .inr h

/-- The predecessors of a position, as the iteration sees them, have an edge to it. -/
def PositionsSound (graph : Digraph) (entry : Nat) (predecessors : Nat → List Nat) : Prop :=
  ∀ position, ∀ predecessor ∈ predecessors position, ∃ source node,
    (graph.reversePostorder entry)[predecessor]? = some source ∧
      (graph.reversePostorder entry)[position]? = some node ∧ node ∈ graph.successors source ∧ node < graph.size

theorem NoneTooHigh.improve {parents : Parents} (h : NoneTooHigh graph entry parents) {predecessors : Nat → List Nat}
    (hsound : PositionsSound graph entry predecessors) (position : Nat) :
    NoneTooHigh graph entry (improve predecessors parents position) := by
  unfold Dominators.improve
  split
  · exact h
  · next found hfound =>
    intro other up hparent node hnode upper hdominates hne
    rcases parent?_set hparent with ⟨rfl, rfl⟩ | hold
    · refine BelowAt.meetAll h (fun predecessor hmem => ?_) hfound
      obtain ⟨source, target, hsource, htarget, hedge, hlt⟩ := hsound other predecessor hmem
      obtain rfl := Option.some.inj (htarget.symm.trans hnode)
      exact ⟨source, hsource, hdominates.of_edge hne hedge hlt⟩
    · exact h other up hold node hnode upper hdominates hne

theorem NoneTooHigh.sweep {parents : Parents} (h : NoneTooHigh graph entry parents) {predecessors : Nat → List Nat}
    (hsound : PositionsSound graph entry predecessors) : NoneTooHigh graph entry (sweep predecessors parents) := by
  unfold Dominators.sweep
  generalize (List.range parents.length).tail = positions
  induction positions generalizing parents with
  | nil => exact h
  | cons position positions ih => exact ih (h.improve hsound position)

theorem NoneTooHigh.settle {parents : Parents} (h : NoneTooHigh graph entry parents) {predecessors : Nat → List Nat}
    (hsound : PositionsSound graph entry predecessors) : NoneTooHigh graph entry (settle predecessors parents) := by
  fun_induction Dominators.settle predecessors parents with
  | case1 parents next _ ih => exact ih (h.sweep hsound)
  | case2 parents next _ => exact h.sweep hsound

theorem NoneTooHigh.initial (graph : Digraph) (entry size : Nat) : NoneTooHigh graph entry (initial size) := by
  intro position up hparent node hnode upper hdominates hne
  -- only the entry has a parent
  rcases parent?_set hparent with ⟨rfl, -⟩ | hnone
  · exact absurd (eq_of_dominates_first hnode hdominates) hne
  · rw [parent?, List.getElem?_replicate] at hnone
    split at hnone <;> cases hnone

end Dominators

namespace DominatorTree

/-! ### Subtrees -/

theorem mem_childPositions {tree : DominatorTree} {position child : Nat} :
    child ∈ tree.childPositions position ↔
      child < tree.order.length ∧ position < child ∧ tree.parentPosition? child = some position := by
  simp [childPositions]

theorem mem_ancestors_le {tree : DominatorTree} {position upper : Nat} (h : upper ∈ tree.ancestors position) :
    upper ≤ position := by
  induction position using Nat.strong_induction_on with
  | _ position ih =>
    rw [ancestors] at h
    rcases List.mem_cons.1 h with rfl | hmem
    · exact Nat.le_refl _
    · split at hmem
      · next parent _ =>
        split at hmem
        · next hlt => exact (ih parent hlt hmem).trans (Nat.le_of_lt hlt)
        · exact absurd hmem List.not_mem_nil
      · exact absurd hmem List.not_mem_nil

private theorem mem_ancestors_of_parent {tree : DominatorTree} {position parent upper : Nat}
    (hparent : tree.parentPosition? position = some parent) (hlt : parent < position)
    (h : upper ∈ tree.ancestors parent) : upper ∈ tree.ancestors position := by
  rw [ancestors, hparent]
  simp only [hlt, if_true]
  exact List.mem_cons_of_mem _ h

/-- Two ancestors of one position with the same parent are the same. -/
theorem ancestor_unique {tree : DominatorTree} {position left right parent : Nat}
    (hleft : left ∈ tree.ancestors position) (hright : right ∈ tree.ancestors position)
    (hparentLeft : tree.parentPosition? left = some parent) (hparentRight : tree.parentPosition? right = some parent)
    (hltLeft : parent < left) (hltRight : parent < right) : left = right := by
  induction position using Nat.strong_induction_on with
  | _ position ih =>
    rw [ancestors] at hleft hright
    rcases List.mem_cons.1 hleft with rfl | hupLeft <;> rcases List.mem_cons.1 hright with rfl | hupRight
    · rfl
    · rw [hparentLeft] at hupRight
      simp only [hltLeft, if_true] at hupRight
      exact absurd (mem_ancestors_le hupRight) (Nat.not_le_of_lt hltRight)
    · rw [hparentRight] at hupLeft
      simp only [hltRight, if_true] at hupLeft
      exact absurd (mem_ancestors_le hupLeft) (Nat.not_le_of_lt hltLeft)
    · split at hupLeft
      · next up hup =>
        split at hupLeft
        · next hlt =>
          simp only [hup, hlt, if_true] at hupRight
          exact ih up hlt hupLeft hupRight
        · exact absurd hupLeft List.not_mem_nil
      · exact absurd hupLeft List.not_mem_nil

private theorem mem_ancestors_trans {tree : DominatorTree} {position middle upper : Nat}
    (hmiddle : middle ∈ tree.ancestors position) (hupper : upper ∈ tree.ancestors middle) :
    upper ∈ tree.ancestors position := by
  induction position using Nat.strong_induction_on with
  | _ position ih =>
    have hmem := hmiddle
    rw [ancestors] at hmem
    rcases List.mem_cons.1 hmem with rfl | hup
    · exact hupper
    · split at hup
      · next parent hparent =>
        split at hup
        · next hlt => exact mem_ancestors_of_parent hparent hlt (ih parent hlt hup)
        · exact absurd hup List.not_mem_nil
      · exact absurd hup List.not_mem_nil

theorem subtree_eq (tree : DominatorTree) (root : Nat) :
    tree.subtree root = root :: (tree.childPositions root).flatMap tree.subtree := by
  rw [subtree]
  simp [List.flatMap_subtype]

theorem root_mem_ancestors {tree : DominatorTree} {root position : Nat} (h : position ∈ tree.subtree root) :
    root ∈ tree.ancestors position := by
  induction root using subtree.induct tree with
  | case1 root ih =>
    rw [subtree_eq, List.mem_cons, List.mem_flatMap] at h
    rcases h with rfl | ⟨child, hchild, hmem⟩
    · rw [ancestors]
      exact List.mem_cons_self
    · obtain ⟨-, hlt, hparent⟩ := mem_childPositions.1 hchild
      have hroot : root ∈ tree.ancestors root := by
        rw [ancestors]
        exact List.mem_cons_self
      exact mem_ancestors_trans (ih child hchild hmem) (mem_ancestors_of_parent hparent hlt hroot)

private theorem subtree_nodup (tree : DominatorTree) (root : Nat) : (tree.subtree root).Nodup := by
  induction root using subtree.induct tree with
  | case1 root ih =>
    rw [subtree_eq, List.nodup_cons, List.nodup_flatMap]
    refine ⟨fun hroot => ?_, fun child hchild => ih child hchild, ?_⟩
    · obtain ⟨child, hchild, hmem⟩ := List.mem_flatMap.1 hroot
      have hle := mem_ancestors_le (root_mem_ancestors hmem)
      exact absurd (mem_childPositions.1 hchild).2.1 (Nat.not_lt_of_le hle)
    · have hnodup : (tree.childPositions root).Nodup := List.nodup_range.filter _
      refine hnodup.imp_of_mem fun {left right} hleft hright hne position hmemLeft hmemRight => ?_
      obtain ⟨-, hltLeft, hparentLeft⟩ := mem_childPositions.1 hleft
      obtain ⟨-, hltRight, hparentRight⟩ := mem_childPositions.1 hright
      exact hne (ancestor_unique (root_mem_ancestors hmemLeft) (root_mem_ancestors hmemRight) hparentLeft hparentRight
        hltLeft hltRight)

/-- In a subtree every position but the first comes after its parent. -/
theorem parent_before {tree : DominatorTree} {root position : Nat} {before after : List Nat}
    (h : tree.subtree root = before ++ position :: after) (hne : position ≠ root) :
    ∃ parent ∈ before, parent < position ∧ tree.parentPosition? position = some parent := by
  induction root using subtree.induct tree generalizing before after with
  | case1 root ih =>
    rw [subtree_eq] at h
    cases before with
    | nil => exact absurd (List.cons.inj h).1.symm hne
    | cons first before =>
      obtain ⟨rfl, hrest⟩ := List.cons.inj h
      -- among the subtrees of some children, a position is a child itself or follows its parent
      have hchildren : ∀ children ⊆ tree.childPositions root, ∀ before after,
          children.flatMap tree.subtree = before ++ position :: after →
          position ∈ children ∨ ∃ parent ∈ before, parent < position ∧ tree.parentPosition? position = some parent := by
        intro children hsubset
        induction children with
        | nil => simp
        | cons child children ihChildren =>
          rw [List.cons_subset] at hsubset
          intro before after hsplit
          rw [List.flatMap_cons, List.append_eq_append_iff] at hsplit
          rcases hsplit with ⟨more, rfl, hlater⟩ | ⟨more, hchild, hlater⟩
          · refine (ihChildren hsubset.2 more after hlater).imp (List.mem_cons_of_mem _) ?_
            rintro ⟨parent, hmem, hparent⟩
            exact ⟨parent, List.mem_append_right _ hmem, hparent⟩
          · cases more with
            | nil =>
              rw [List.nil_append] at hlater
              refine (ihChildren hsubset.2 [] after hlater.symm).imp (List.mem_cons_of_mem _) ?_
              rintro ⟨parent, hmem, -⟩
              exact absurd hmem List.not_mem_nil
            | cons first more =>
              obtain ⟨rfl, -⟩ := List.cons.inj hlater
              by_cases heq : position = child
              · exact .inl (heq ▸ List.mem_cons_self)
              · exact .inr (ih child hsubset.1 hchild heq)
      rcases hchildren _ (List.Subset.refl _) before after hrest with hchild | ⟨parent, hmem, hparent⟩
      · obtain ⟨-, hlt, hparent⟩ := mem_childPositions.1 hchild
        exact ⟨root, List.mem_cons_self, hlt, hparent⟩
      · exact ⟨parent, List.mem_cons_of_mem _ hmem, hparent⟩

/-! ### The tree of a graph -/

theorem noneTooHigh_ofGraph (hsound : graph.PredecessorsSound) :
    Dominators.NoneTooHigh graph entry (ofGraph graph entry).parents := by
  refine (Dominators.NoneTooHigh.initial graph entry _).settle ?_
  intro position predecessor hmem
  simp only at hmem
  split at hmem
  · exact absurd hmem List.not_mem_nil
  · next node hnode =>
    obtain ⟨source, hsource, hindex⟩ := List.mem_filterMap.1 hmem
    obtain ⟨hlt, hget, -⟩ := List.idxOf?_eq_some_iff.1 hindex
    exact ⟨source, node, List.getElem?_eq_some_iff.2 ⟨hlt, hget⟩, hnode, hsound source node hsource⟩

/-- Whatever strictly dominates a node of a subtree is the node of an earlier position, if the subtree is the whole
tree. -/
theorem dominator_before_in_subtree (hsound : graph.PredecessorsSound) {position node upper : Nat}
    (hnode : (graph.reversePostorder entry)[position]? = some node) (hdominates : graph.Dominates entry upper node)
    (hne : upper ≠ node) {before after : List Nat}
    (hsplit : (ofGraph graph entry).subtree 0 = before ++ position :: after) :
    ∃ high ∈ before, (graph.reversePostorder entry)[high]? = some upper := by
  induction position using Nat.strong_induction_on generalizing node before after with
  | _ position ih =>
    by_cases hroot : position = 0
    · exact absurd (Dominators.eq_of_dominates_first (hroot ▸ hnode) hdominates) hne
    · obtain ⟨parent, hparent, hlt, hup⟩ := parent_before hsplit hroot
      rw [parentPosition?, if_neg hroot] at hup
      obtain ⟨above, habove, hdominatesAbove⟩ :=
        noneTooHigh_ofGraph hsound position parent hup node hnode upper hdominates hne
      by_cases heq : upper = above
      · exact ⟨parent, hparent, heq ▸ habove⟩
      · obtain ⟨first, last, rfl⟩ := List.append_of_mem hparent
        rw [List.append_assoc] at hsplit
        obtain ⟨high, hhigh, hget⟩ := ih parent hlt habove hdominatesAbove heq hsplit
        exact ⟨high, List.mem_append_left _ hhigh, hget⟩

private theorem mem_preorder {tree : DominatorTree} {node : Nat} (h : node ∈ tree.preorder) :
    ∃ position ∈ tree.subtree 0, tree.order[position]? = some node := by
  unfold preorder at h
  split at h
  · exact absurd h List.not_mem_nil
  · exact List.mem_filterMap.1 h

theorem reachable_of_mem_preorder {node : Nat} (h : node ∈ (ofGraph graph entry).preorder) :
    graph.Reachable entry node := by
  obtain ⟨position, -, hnode⟩ := mem_preorder h
  exact reachable_of_mem_reversePostorder (List.mem_of_getElem? hnode)

theorem preorder_nodup (graph : Digraph) (entry : Nat) : (ofGraph graph entry).preorder.Nodup := by
  unfold preorder
  split
  · exact List.nodup_nil
  · refine (subtree_nodup _ 0).filterMap fun left right node hleft hright => ?_
    exact Dominators.position_unique hleft hright

/-- The preorder lists every node after its strict dominators. -/
theorem dominator_before_in_preorder (hsound : graph.PredecessorsSound) {node upper : Nat} {before after : List Nat}
    (hsplit : (ofGraph graph entry).preorder = before ++ node :: after) (hdominates : graph.Dominates entry upper node)
    (hne : upper ≠ node) : upper ∈ before := by
  unfold preorder at hsplit
  split at hsplit
  · simp at hsplit
  · obtain ⟨first, rest, hsubtree, rfl, hrest⟩ := List.filterMap_eq_append_iff.1 hsplit
    obtain ⟨skipped, position, last, rfl, hskipped, hnode, -⟩ := List.filterMap_eq_cons_iff.1 hrest
    rw [← List.append_assoc] at hsubtree
    obtain ⟨high, hhigh, hget⟩ := dominator_before_in_subtree hsound hnode hdominates hne hsubtree
    rcases List.mem_append.1 hhigh with hmem | hmem
    · exact List.mem_filterMap.2 ⟨high, hmem, hget⟩
    · cases (hskipped high hmem).symm.trans hget

end DominatorTree

end Bytecode
