import Bytecode.Proofs.Graph.Dominance
import Mathlib.Data.List.Nodup
/-!
# Reverse postorder

While a depth-first search runs, the nodes on its stack form a path from the entry. So when a node is closed, whatever
dominates it is still open and will be closed later: in reverse postorder every node comes after its dominators.
-/

namespace Bytecode.Digraph

variable {graph : Digraph} {entry : Nat}

/-- A state of the search: the open nodes form a path and are marked, and only successors are tried. -/
structure Searching (graph : Digraph) (entry : Nat) (stack : List Frame) (marked : List Nat) : Prop where
  path : ∀ top ∈ stack.head?, graph.Path entry (stack.map (·.node)) top.node
  untried_subset : ∀ frame ∈ stack, frame.untried ⊆ graph.successors frame.node
  node_marked : ∀ frame ∈ stack, frame.node ∈ marked
  nodup : (stack.map (·.node)).Nodup

namespace Searching

theorem start (hentry : entry < graph.size) :
    graph.Searching entry [⟨entry, graph.successors entry⟩] [entry] where
  path := by
    intro top htop
    obtain rfl := Option.some.inj htop
    exact .start hentry
  untried_subset := by simp
  node_marked := by simp
  nodup := by simp

theorem close {node : Nat} {stack : List Frame} {marked : List Nat}
    (h : graph.Searching entry (⟨node, []⟩ :: stack) marked) : graph.Searching entry stack marked where
  path := by
    intro top htop
    cases stack with
    | nil => cases htop
    | cons frame stack =>
      obtain rfl := Option.some.inj htop
      exact (h.path _ rfl).tail
  untried_subset := fun frame hframe => h.untried_subset frame (List.mem_cons_of_mem _ hframe)
  node_marked := fun frame hframe => h.node_marked frame (List.mem_cons_of_mem _ hframe)
  nodup := (List.nodup_cons.1 h.nodup).2

theorem skip {node next : Nat} {untried : List Nat} {stack : List Frame} {marked : List Nat}
    (h : graph.Searching entry (⟨node, next :: untried⟩ :: stack) marked) :
    graph.Searching entry (⟨node, untried⟩ :: stack) marked where
  path := by
    intro top htop
    obtain rfl := Option.some.inj htop
    exact h.path ⟨node, next :: untried⟩ rfl
  untried_subset := by
    rw [List.forall_mem_cons]
    have hall := List.forall_mem_cons.1 h.untried_subset
    exact ⟨fun other hother => hall.1 (List.mem_cons_of_mem _ hother), hall.2⟩
  node_marked := by
    rw [List.forall_mem_cons]
    exact List.forall_mem_cons.1 h.node_marked
  nodup := h.nodup

theorem visit {node next : Nat} {untried : List Nat} {stack : List Frame} {marked : List Nat}
    (h : graph.Searching entry (⟨node, next :: untried⟩ :: stack) marked) (hnext : next < graph.size)
    (hfresh : next ∉ marked) :
    graph.Searching entry (⟨next, graph.successors next⟩ :: ⟨node, untried⟩ :: stack) (next :: marked) where
  path := by
    intro top htop
    obtain rfl := Option.some.inj htop
    have hedge : next ∈ graph.successors node := h.untried_subset _ List.mem_cons_self List.mem_cons_self
    exact (h.path ⟨node, next :: untried⟩ rfl).step hedge hnext
  untried_subset := by
    rw [List.forall_mem_cons]
    exact ⟨List.Subset.refl _, h.skip.untried_subset⟩
  node_marked := by
    rw [List.forall_mem_cons]
    exact ⟨List.mem_cons_self, fun frame hframe => List.mem_cons_of_mem _ (h.skip.node_marked frame hframe)⟩
  nodup := by
    rw [List.map_cons, List.nodup_cons]
    refine ⟨fun hmem => ?_, h.nodup⟩
    obtain ⟨frame, hframe, rfl⟩ := List.mem_map.1 hmem
    exact hfresh (h.skip.node_marked frame hframe)

end Searching

/-! ### What a search closes -/

/-- Every open node is closed in the end. -/
theorem stack_subset_closeFrames (stack : List Frame) (marked : List Nat) :
    stack.map (·.node) ⊆ graph.closeFrames stack marked := by
  fun_induction closeFrames graph stack marked with
  | case1 => exact List.Subset.refl _
  | case2 node stack marked ih => exact List.cons_subset_cons node ih
  | case3 node next untried stack marked hfresh ih => exact fun _ h => ih (List.mem_cons_of_mem _ h)
  | case4 node next untried stack marked hseen ih => exact ih

/-- A node that is closed was open or is found later. -/
theorem mem_closeFrames {stack : List Frame} {marked : List Nat} {node : Nat}
    (h : node ∈ graph.closeFrames stack marked) : node ∈ stack.map (·.node) ∨ node ∉ marked := by
  fun_induction closeFrames graph stack marked with
  | case1 => exact absurd h List.not_mem_nil
  | case2 top stack marked ih =>
    rcases List.mem_cons.1 h with rfl | hlater
    · exact .inl List.mem_cons_self
    · exact (ih hlater).imp_left (List.mem_cons_of_mem _)
  | case3 top next untried stack marked hfresh ih =>
    rcases ih h with hopen | hnew
    · rcases List.mem_cons.1 hopen with rfl | hold
      · exact .inr hfresh.2
      · exact .inl hold
    · exact .inr fun hmem => hnew (List.mem_cons_of_mem _ hmem)
  | case4 top next untried stack marked hseen ih => exact ih h

private theorem closeFrames_nodup {stack : List Frame} {marked : List Nat} (h : graph.Searching entry stack marked) :
    (graph.closeFrames stack marked).Nodup := by
  fun_induction closeFrames graph stack marked with
  | case1 => exact List.nodup_nil
  | case2 node stack marked ih =>
    refine List.nodup_cons.2 ⟨fun hmem => ?_, ih h.close⟩
    rcases mem_closeFrames hmem with hopen | hnew
    · exact (List.nodup_cons.1 h.nodup).1 hopen
    · exact hnew (h.node_marked _ List.mem_cons_self)
  | case3 node next untried stack marked hfresh ih => exact ih (h.visit (List.mem_range.1 hfresh.1) hfresh.2)
  | case4 node next untried stack marked hseen ih => exact ih h.skip

private theorem reachable_of_mem_closeFrames {stack : List Frame} {marked : List Nat}
    (h : graph.Searching entry stack marked)
    {node : Nat} (hnode : node ∈ graph.closeFrames stack marked) : graph.Reachable entry node := by
  fun_induction closeFrames graph stack marked with
  | case1 => exact absurd hnode List.not_mem_nil
  | case2 top stack marked ih =>
    rcases List.mem_cons.1 hnode with rfl | hlater
    · exact ⟨_, h.path _ rfl⟩
    · exact ih h.close hlater
  | case3 top next untried stack marked hfresh ih => exact ih (h.visit (List.mem_range.1 hfresh.1) hfresh.2) hnode
  | case4 top next untried stack marked hseen ih => exact ih h.skip hnode

/-- Where an open node leads is still to be tried or has been marked. -/
def Tried (graph : Digraph) (stack : List Frame) (marked : List Nat) : Prop :=
  ∀ frame ∈ stack, ∀ next ∈ graph.successors frame.node, next < graph.size → next ∈ frame.untried ∨ next ∈ marked

private theorem tried_start (graph : Digraph) (entry : Nat) :
    graph.Tried [⟨entry, graph.successors entry⟩] [entry] := by
  intro frame hframe next hnext _
  obtain rfl := List.mem_singleton.1 hframe
  exact .inl hnext

namespace Tried

variable {node next : Nat} {untried : List Nat} {stack : List Frame} {marked : List Nat}

theorem visit (h : graph.Tried (⟨node, next :: untried⟩ :: stack) marked) :
    graph.Tried (⟨next, graph.successors next⟩ :: ⟨node, untried⟩ :: stack) (next :: marked) := by
  have hall := List.forall_mem_cons.1 h
  intro frame hframe other hother hbound
  rcases List.mem_cons.1 hframe with rfl | hframe
  · exact .inl hother
  · rcases List.mem_cons.1 hframe with rfl | hframe
    · rcases hall.1 other hother hbound with huntried | hmarked
      · rcases List.mem_cons.1 huntried with rfl | hlater
        · exact .inr List.mem_cons_self
        · exact .inl hlater
      · exact .inr (List.mem_cons_of_mem _ hmarked)
    · exact (hall.2 frame hframe other hother hbound).imp_right (List.mem_cons_of_mem _)

theorem skip (h : graph.Tried (⟨node, next :: untried⟩ :: stack) marked)
    (hseen : ¬ (next ∈ graph.nodes ∧ next ∉ marked)) : graph.Tried (⟨node, untried⟩ :: stack) marked := by
  have hall := List.forall_mem_cons.1 h
  intro frame hframe other hother hbound
  rcases List.mem_cons.1 hframe with rfl | hframe
  · rcases hall.1 other hother hbound with huntried | hmarked
    · rcases List.mem_cons.1 huntried with rfl | hlater
      · -- the successor that was skipped had been marked
        exact .inr (not_not.1 fun hnot => hseen ⟨List.mem_range.2 hbound, hnot⟩)
      · exact .inl hlater
    · exact .inr hmarked
  · exact hall.2 frame hframe other hother hbound

end Tried

/-- When a node is closed, nothing is left to try there, and what the search closes from then on comes after the node. -/
theorem exists_searching_of_closed {stack : List Frame} {marked : List Nat} (h : graph.Searching entry stack marked)
    (htried : graph.Tried stack marked) {node : Nat} {before after : List Nat}
    (hclosed : graph.closeFrames stack marked = before ++ node :: after) :
    ∃ rest seen, graph.Searching entry (⟨node, []⟩ :: rest) seen ∧ graph.Tried (⟨node, []⟩ :: rest) seen ∧
      after = graph.closeFrames rest seen := by
  fun_induction closeFrames graph stack marked generalizing before with
  | case1 => simp at hclosed
  | case2 top stack marked ih =>
    cases before with
    | nil =>
      obtain ⟨rfl, rfl⟩ := List.cons.inj hclosed
      exact ⟨stack, marked, h, htried, rfl⟩
    | cons first before => exact ih h.close (List.forall_mem_cons.1 htried).2 (List.cons.inj hclosed).2
  | case3 top next untried stack marked hfresh ih =>
    exact ih (h.visit (List.mem_range.1 hfresh.1) hfresh.2) htried.visit hclosed
  | case4 top next untried stack marked hseen ih => exact ih h.skip (htried.skip hseen) hclosed

/-- Where a closed node leads is closed as well, or was marked before. -/
theorem successor_closed {stack : List Frame} {marked : List Nat} (h : graph.Tried stack marked) {node next : Nat}
    (hnode : node ∈ graph.closeFrames stack marked) (hnext : next ∈ graph.successors node) (hlt : next < graph.size) :
    next ∈ graph.closeFrames stack marked ∨ next ∈ marked := by
  fun_induction closeFrames graph stack marked with
  | case1 => exact absurd hnode List.not_mem_nil
  | case2 top stack marked ih =>
    have hall := List.forall_mem_cons.1 h
    rcases List.mem_cons.1 hnode with rfl | hlater
    · exact .inr ((hall.1 next hnext hlt).resolve_left List.not_mem_nil)
    · exact (ih hall.2 hlater).imp_left (List.mem_cons_of_mem _)
  | case3 top found untried stack marked hfresh ih =>
    rcases ih h.visit hnode with hclosed | hmarked
    · exact .inl hclosed
    · rcases List.mem_cons.1 hmarked with rfl | hmarked
      · exact .inl (stack_subset_closeFrames _ _ List.mem_cons_self)
      · exact .inr hmarked
  | case4 top found untried stack marked hseen ih => exact ih (h.skip hseen) hnode

/-! ### The order -/

theorem reversePostorder_nodup (graph : Digraph) (entry : Nat) : (graph.reversePostorder entry).Nodup := by
  rw [reversePostorder, List.nodup_reverse, postorder]
  split
  · next hentry => exact closeFrames_nodup (.start hentry)
  · exact List.nodup_nil

theorem reachable_of_mem_reversePostorder {node : Nat} (h : node ∈ graph.reversePostorder entry) :
    graph.Reachable entry node := by
  rw [reversePostorder, List.mem_reverse, postorder] at h
  split at h
  · next hentry => exact reachable_of_mem_closeFrames (.start hentry) h
  · exact absurd h List.not_mem_nil

/-- The order lists exactly the nodes that can be reached. -/
theorem mem_reversePostorder_iff {node : Nat} :
    node ∈ graph.reversePostorder entry ↔ graph.Reachable entry node := by
  refine ⟨reachable_of_mem_reversePostorder, ?_⟩
  rintro ⟨passed, hpath⟩
  have hentry : entry < graph.size := hpath.entry_lt
  have hopen : entry ∈ graph.closeFrames [⟨entry, graph.successors entry⟩] [entry] :=
    stack_subset_closeFrames [⟨entry, graph.successors entry⟩] [entry] List.mem_cons_self
  rw [reversePostorder, List.mem_reverse, postorder, if_pos hentry]
  induction hpath with
  | start => exact hopen
  | step _ hnext hlt ih =>
    rcases successor_closed (tried_start graph entry) ih hnext hlt with hclosed | hmarked
    · exact hclosed
    · obtain rfl := List.mem_singleton.1 hmarked
      exact hopen

/-- The state in which the search closes a node of the order. -/
theorem exists_searching_of_postorder {node : Nat} {before after : List Nat}
    (h : graph.postorder entry = before ++ node :: after) :
    ∃ rest seen, graph.Searching entry (⟨node, []⟩ :: rest) seen ∧ graph.Tried (⟨node, []⟩ :: rest) seen ∧
      after = graph.closeFrames rest seen := by
  rw [postorder] at h
  split at h
  · next hentry => exact exists_searching_of_closed (.start hentry) (tried_start graph entry) h
  · simp at h

private theorem postorder_eq_of_reversePostorder_eq {node : Nat} {before after : List Nat}
    (h : graph.reversePostorder entry = before ++ node :: after) :
    graph.postorder entry = after.reverse ++ node :: before.reverse := by
  rw [← List.reverse_reverse (graph.postorder entry)]
  change (graph.reversePostorder entry).reverse = _
  rw [h]
  simp

/-- In reverse postorder a node other than the entry comes after a node with an edge to it. -/
theorem predecessor_before {node : Nat} {before after : List Nat}
    (h : graph.reversePostorder entry = before ++ node :: after) (hne : node ≠ entry) :
    ∃ source ∈ before, node ∈ graph.successors source := by
  obtain ⟨rest, seen, hsearching, -, hlater⟩ :=
    exists_searching_of_postorder (postorder_eq_of_reversePostorder_eq h)
  have hopen : rest.map (·.node) ⊆ before.reverse := hlater ▸ stack_subset_closeFrames rest seen
  have hpath : graph.Path entry (node :: rest.map (·.node)) node := hsearching.path _ rfl
  -- the open nodes form a path, and its last step led to the node
  generalize rest.map (·.node) = opened at hopen hpath
  cases hpath with
  | start => exact absurd rfl hne
  | step hfront hedge => exact ⟨_, List.mem_reverse.1 (hopen hfront.target_mem), hedge⟩

/-- In reverse postorder a node comes after its dominators, which are open when the node is closed. -/
theorem dominator_before {upper node : Nat} {before after : List Nat}
    (h : graph.reversePostorder entry = before ++ node :: after) (hdominates : graph.Dominates entry upper node)
    (hne : upper ≠ node) : upper ∈ before := by
  obtain ⟨rest, seen, hsearching, -, hlater⟩ :=
    exists_searching_of_postorder (postorder_eq_of_reversePostorder_eq h)
  have hopen : rest.map (·.node) ⊆ before.reverse := hlater ▸ stack_subset_closeFrames rest seen
  have hpassed := hdominates _ (hsearching.path _ rfl)
  exact List.mem_reverse.1 (hopen ((List.mem_cons.1 hpassed).resolve_left hne))

end Bytecode.Digraph
