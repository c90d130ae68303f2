import Bytecode.CallGraph.Peeling
import Bytecode.Proofs.CallGraph.Slots
import Mathlib.Data.Finset.Max
/-!
# What picking a wave does

Between two waves the slots of a call graph are linked and its leaves are exactly the slots of the methods without calls.
Removing the leaves works through them one at a time; on the way the leaves still to be removed and the new leaves together
are the slots without calls, and that is what one removal keeps. Cutting cycles turns chosen nodes into leaves, all
others keep their calls, and the choice reads only degrees that no cut has changed yet.

Both kinds of step are summed up in `pick_eq`: a wave takes its methods out of the graph with every edge at them, and
what is left is again a graph between two waves.
-/

namespace Bytecode

/-- A node after the calls in some slots were cut. -/
def CallSlot.cut (cut : List Nat) (position : Nat) (slot : CallSlot) : CallSlot :=
  { slot with
    callees := if position ∈ cut then [] else slot.callees
    callers := slot.callers.filter (· ∉ cut) }

/-- Whether a node has no other call than this one. -/
def CallSlot.callsOnly (callee : Nat) (slot : CallSlot) : Bool :=
  (slot.callees.erase callee).isEmpty

namespace CallGraph

/-- The pending slots and then the leaves are the slots without calls, each once. -/
structure LeavesListed (graph : CallGraph) (pending : List Nat) : Prop where
  nodup : (pending ++ graph.leaves).Nodup
  mem_iff : ∀ position, position ∈ pending ++ graph.leaves ↔
    ∃ slot, graph.slot? position = some slot ∧ slot.callees = []

/-- A graph between two waves. -/
structure Peelable (graph : CallGraph) : Prop where
  linked : graph.Linked
  leaves : LeavesListed graph []

namespace Peelable

variable {graph : CallGraph}

theorem balanced (h : graph.Peelable) : Balanced graph.nodes :=
  h.linked.balanced

theorem mem_leaves (h : graph.Peelable) {position : Nat} :
    position ∈ graph.leaves ↔ ∃ slot, graph.slot? position = some slot ∧ slot.callees = [] :=
  h.leaves.mem_iff position

theorem exists_methodAt? (h : graph.Peelable) {position : Nat} (hposition : position ∈ graph.leaves) :
    ∃ method, graph.methodAt? position = some method := by
  obtain ⟨slot, hslot, -⟩ := h.mem_leaves.1 hposition
  exact ⟨_, methodAt?_of_slot? hslot⟩

theorem frontier_nodup (h : graph.Peelable) : graph.frontier.Nodup :=
  h.linked.methodsAt_nodup h.leaves.nodup

theorem mem_frontier (h : graph.Peelable) {method : MethodId} :
    method ∈ graph.frontier ↔ ∃ node ∈ graph.nodes, node.method = method ∧ node.callees = [] := by
  rw [frontier, mem_methodsAt]
  constructor
  · rintro ⟨position, hposition, hmethod⟩
    obtain ⟨slot, hslot, hcallees⟩ := h.mem_leaves.1 hposition
    refine ⟨graph.node slot, mem_nodes.2 ⟨position, slot, hslot, rfl⟩, ?_, ?_⟩
    · exact Option.some.inj ((methodAt?_of_slot? hslot).symm.trans hmethod)
    · rw [node, hcallees]
      rfl
  · rintro ⟨node, hnode, rfl, hcallees⟩
    obtain ⟨position, slot, hslot, rfl⟩ := mem_nodes.1 hnode
    refine ⟨position, h.mem_leaves.2 ⟨slot, hslot, ?_⟩, methodAt?_of_slot? hslot⟩
    rw [← List.length_eq_zero_iff]
    exact (h.linked.degree_node hslot).symm.trans (List.length_eq_zero_iff.2 hcallees)

theorem isEmpty_leaves (h : graph.Peelable) : graph.leaves.isEmpty = graph.frontier.isEmpty := by
  rw [Bool.eq_iff_iff, List.isEmpty_iff_length_eq_zero, List.isEmpty_iff_length_eq_zero, frontier,
    length_methodsAt fun _ hposition => h.exists_methodAt? hposition]

end Peelable

/-! ### Removing leaves -/

theorem erase_eq_filter_not_mem {positions : List Nat} (hnodup : positions.Nodup) (position : Nat) :
    positions.erase position = positions.filter (· ∉ [position]) := by
  rw [hnodup.erase_eq_filter]
  apply List.filter_congr
  intro other _
  by_cases heq : other = position <;> simp [heq]

private theorem callsOnly_iff {slot : CallSlot} (hnodup : slot.callees.Nodup) (callee : Nat) :
    slot.callsOnly callee = true ↔ (slot.detach [callee]).callees = [] := by
  rw [CallSlot.callsOnly, erase_eq_filter_not_mem hnodup, List.isEmpty_iff]
  rfl

/-- Taking a call out of every caller, one caller at a time. Those without another call join the leaves. -/
theorem foldl_dropCall (callee : Nat) {callers : List Nat} (hnodup : callers.Nodup) (graph : CallGraph) :
    callers.foldl (dropCall callee) graph =
      { graph.mapSlots fun position slot =>
          if position ∈ callers then { slot with callees := slot.callees.erase callee } else slot with
        leaves := graph.leaves ++ callers.filter fun caller => (graph.slot? caller).any (CallSlot.callsOnly callee) } := by
  induction callers generalizing graph with
  | nil => simp only [List.not_mem_nil, if_false, mapSlots_id, List.filter_nil, List.append_nil, List.foldl_nil]
  | cons caller callers ih =>
    obtain ⟨hhead, htail⟩ := List.nodup_cons.1 hnodup
    have hstep : dropCall callee graph caller =
        { graph.modifySlot caller fun slot => { slot with callees := slot.callees.erase callee } with
          leaves := graph.leaves ++
            if (graph.slot? caller).any (CallSlot.callsOnly callee) then [caller] else [] } := by
      have hany : ((graph.modifySlot caller fun slot => { slot with callees := slot.callees.erase callee }).slot?
          caller).any (·.isLeaf) = (graph.slot? caller).any (CallSlot.callsOnly callee) := by
        rw [slot?_modifySlot, if_pos rfl, Option.any_map]
        rfl
      rw [dropCall, hany]
      split
      · rfl
      · rw [List.append_nil]
        rfl
    -- a caller that comes later still has the calls it had at first
    have hleaves : callers.filter (fun other => ((dropCall callee graph caller).slot? other).any
        (CallSlot.callsOnly callee)) = callers.filter fun other => (graph.slot? other).any (CallSlot.callsOnly callee) := by
      apply List.filter_congr
      intro other hother
      have hne : other ≠ caller := fun heq => hhead (heq ▸ hother)
      have hslot : (dropCall callee graph caller).slot? other = graph.slot? other := by
        rw [hstep]
        exact (slot?_modifySlot _).trans (if_neg hne)
      rw [hslot]
    have hslots : ((graph.modifySlot caller fun slot => { slot with callees := slot.callees.erase callee }).mapSlots
          fun position slot => if position ∈ callers then { slot with callees := slot.callees.erase callee } else slot)
        = graph.mapSlots fun position slot =>
          if position ∈ caller :: callers then { slot with callees := slot.callees.erase callee } else slot := by
      rw [modifySlot_eq_mapSlots, mapSlots_mapSlots]
      apply mapSlots_congr
      intro position slot _
      by_cases hcaller : position = caller
      · simp [hcaller, hhead]
      · simp [hcaller]
    rw [List.foldl_cons, ih htail, hleaves, hstep, List.filter_cons, ← hslots]
    simp only [mapSlots, List.append_assoc]
    split <;> rfl

section Leaf

variable {graph : CallGraph} {position : Nat} {leaf : CallSlot}

/-- A leaf calls nothing, so no node has it as a caller. -/
private theorem not_mem_callers_of_leaf (h : graph.Linked) (hleaf : graph.slot? position = some leaf)
    (hcallees : leaf.callees = []) {other : Nat} {slot : CallSlot} (hslot : graph.slot? other = some slot) :
    position ∉ slot.callers := by
  rw [h.mem_callers_iff hleaf hslot, hcallees]
  exact List.not_mem_nil

/-- Emptying the slot of a leaf takes the edges at it out of its callers; no other node names it. -/
private theorem detached_withoutLeaf (h : graph.Linked) (hleaf : graph.slot? position = some leaf)
    (hcallees : leaf.callees = []) : Detached graph [position] (graph.withoutLeaf position leaf) := by
  rw [withoutLeaf, foldl_dropCall position (h.callers_nodup position leaf hleaf)]
  constructor
  · exact (length_slots_mapSlots _).trans List.length_set
  · intro other
    refine (slot?_mapSlots _ other).trans ?_
    rw [slot?_set_none]
    by_cases hother : other = position
    · simp [hother]
    · simp only [hother, if_false, List.mem_singleton]
      apply Option.map_congr
      intro slot hslot
      have hcallers : slot.callers.filter (· ∉ [position]) = slot.callers := by
        rw [List.filter_eq_self]
        intro caller hcaller
        have hne : caller ≠ position := fun heq => not_mem_callers_of_leaf h hleaf hcallees hslot (heq ▸ hcaller)
        simpa using hne
      have herase := erase_eq_filter_not_mem (h.callees_nodup other slot hslot) position
      by_cases hcaller : other ∈ leaf.callers
      · rw [if_pos hcaller, CallSlot.detach, hcallers, herase]
      · have hnot : position ∉ slot.callees := by
          rwa [← h.mem_callers_iff hslot hleaf]
        rw [if_neg hcaller, CallSlot.detach, hcallers, ← herase, List.erase_of_not_mem hnot]

private theorem linked_withoutLeaf (h : graph.Linked) (hleaf : graph.slot? position = some leaf)
    (hcallees : leaf.callees = []) : (graph.withoutLeaf position leaf).Linked := by
  have hdetached := detached_withoutLeaf h hleaf hcallees
  have hfields : (graph.withoutLeaf position leaf).index = graph.index.erase leaf.method ∧
      (graph.withoutLeaf position leaf).live = graph.live - 1 := by
    rw [withoutLeaf, foldl_dropCall position (h.callers_nodup position leaf hleaf)]
    exact ⟨rfl, rfl⟩
  apply hdetached.linked h
  · intro method
    have hmethods : graph.methodsAt [position] = [leaf.method] := by
      rw [methodsAt, List.filterMap_cons, methodAt?_of_slot? hleaf, List.filterMap_nil]
    rw [hfields.1, Table.find?_erase, hmethods]
    simp only [List.mem_singleton]
  · have hcleared : (graph.withoutLeaf position leaf).slots.countP Option.isSome
        = (graph.slots.set position none).countP Option.isSome := by
      apply countP_slots_congr _ { graph with slots := graph.slots.set position none }
      · exact hdetached.length_slots.trans List.length_set.symm
      · intro other
        rw [hdetached.slot?_eq, slot?_set_none]
        by_cases hother : other = position <;> simp [hother]
    have hlt := lt_of_slot? hleaf
    have hget : graph.slots[position] = some leaf :=
      Option.some.inj ((List.getElem?_eq_getElem hlt).symm.trans (slot?_eq_some.1 hleaf))
    rw [hfields.2, hcleared, List.countP_set hlt, hget, h.counted]
    simp

private theorem leaves_withoutLeaf (h : graph.Linked) (hleaf : graph.slot? position = some leaf)
    (hcallees : leaf.callees = []) :
    (graph.withoutLeaf position leaf).leaves
      = graph.leaves ++ leaf.callers.filter fun caller => (graph.slot? caller).any (CallSlot.callsOnly position) := by
  rw [withoutLeaf, foldl_dropCall position (h.callers_nodup position leaf hleaf)]
  refine congrArg (graph.leaves ++ ·) (List.filter_congr fun caller hcaller => ?_)
  have hne : caller ≠ position := fun heq => not_mem_callers_of_leaf h hleaf hcallees hleaf (heq ▸ hcaller)
  rw [slot?_set_none, if_neg hne]

/-- A slot without callees after a leaf was removed had none before, or its only call was to the leaf. -/
private theorem detach_callees_eq_nil_iff (h : graph.Linked) (hleaf : graph.slot? position = some leaf) {other : Nat}
    {slot : CallSlot} (hslot : graph.slot? other = some slot) :
    (slot.detach [position]).callees = [] ↔
      slot.callees = [] ∨ other ∈ leaf.callers ∧ slot.callsOnly position = true := by
  rw [callsOnly_iff (h.callees_nodup other slot hslot)]
  constructor
  · intro hempty
    by_cases hcallees : slot.callees = []
    · exact .inl hcallees
    · obtain ⟨callee, hcallee⟩ := List.exists_mem_of_ne_nil _ hcallees
      have hgone : callee = position := by
        have hall := List.filter_eq_nil_iff.1 hempty callee hcallee
        simpa using hall
      exact .inr ⟨(h.mem_callers_iff hslot hleaf).2 (hgone ▸ hcallee), hempty⟩
  · rintro (hcallees | ⟨-, hempty⟩)
    · simp [CallSlot.detach, hcallees]
    · exact hempty

/-- Without the first of the pending leaves, its callers that are left without a call are leaves as well. -/
private theorem leavesListed_withoutLeaf (h : graph.Linked) {pending : List Nat}
    (hleaves : graph.LeavesListed (position :: pending)) (hleaf : graph.slot? position = some leaf)
    (hcallees : leaf.callees = []) : (graph.withoutLeaf position leaf).LeavesListed pending := by
  obtain ⟨hhead, htail⟩ := List.nodup_cons.1 hleaves.nodup
  have hdetached := detached_withoutLeaf h hleaf hcallees
  have hcaller {caller : Nat} {slot : CallSlot} (hslot : graph.slot? caller = some slot)
      (hmem : caller ∈ leaf.callers) : slot.callees ≠ [] := by
    intro hnone
    exact not_mem_callers_of_leaf h hslot hnone hleaf hmem
  constructor
  · rw [leaves_withoutLeaf h hleaf hcallees, ← List.append_assoc, List.nodup_append]
    refine ⟨htail, (h.callers_nodup position leaf hleaf).filter _, ?_⟩
    rintro other hother caller hmem rfl
    obtain ⟨slot, hslot, hempty⟩ := (hleaves.mem_iff other).1 (List.mem_cons_of_mem _ hother)
    exact hcaller hslot (List.mem_of_mem_filter hmem) hempty
  · intro other
    have hrest : other ∈ pending ++ graph.leaves ↔
        other ≠ position ∧ ∃ slot, graph.slot? other = some slot ∧ slot.callees = [] := by
      rw [← hleaves.mem_iff, List.cons_append, List.mem_cons]
      constructor
      · exact fun hmem => ⟨fun heq => hhead (heq ▸ hmem), .inr hmem⟩
      · exact fun hmem => hmem.2.resolve_left hmem.1
    rw [leaves_withoutLeaf h hleaf hcallees, ← List.append_assoc, List.mem_append, hrest, List.mem_filter,
      Option.any_eq_true, hdetached.slot?_eq]
    by_cases hother : other = position
    · subst hother
      have hself : other ∉ leaf.callers := not_mem_callers_of_leaf h hleaf hcallees hleaf
      simp [hself]
    · cases hslot : graph.slot? other with
      | none => simp [hother]
      | some slot => simp [hother, detach_callees_eq_nil_iff h hleaf hslot]

end Leaf

/-- Removing the first of the pending leaves. -/
theorem removeLeaf_eq {graph : CallGraph} (h : graph.Linked) {position : Nat} {pending : List Nat}
    (hleaves : graph.LeavesListed (position :: pending)) :
    ∃ method rest, graph.methodAt? position = some method ∧ graph.removeLeaf position = .ok (method, rest) ∧
      Detached graph [position] rest ∧ rest.Linked ∧ rest.LeavesListed pending := by
  obtain ⟨leaf, hleaf, hcallees⟩ := (hleaves.mem_iff position).1 List.mem_cons_self
  refine ⟨leaf.method, graph.withoutLeaf position leaf, methodAt?_of_slot? hleaf, ?_,
    detached_withoutLeaf h hleaf hcallees, linked_withoutLeaf h hleaf hcallees,
    leavesListed_withoutLeaf h hleaves hleaf hcallees⟩
  rw [removeLeaf, hleaf]
  exact if_pos (List.isEmpty_iff.2 hcallees)

/-- Pending leaves are removed one after another, and what becomes a leaf on the way is listed in the end. -/
theorem removeLeaves_eq (pending : List Nat) {graph : CallGraph} (h : graph.Linked)
    (hleaves : graph.LeavesListed pending) :
    ∃ rest, removeLeaves pending graph = .ok (graph.methodsAt pending, rest) ∧ Detached graph pending rest ∧
      rest.Peelable := by
  induction pending generalizing graph with
  | nil => exact ⟨graph, rfl, .nil graph, h, hleaves⟩
  | cons position pending ih =>
    obtain ⟨method, next, hmethod, hnext, hdetached, hlinked, hlisted⟩ := removeLeaf_eq h hleaves
    obtain ⟨rest, hrest, hlater, hpeelable⟩ := ih hlinked hlisted
    have hmethods : next.methodsAt pending = graph.methodsAt pending := by
      apply List.filterMap_congr
      intro other hother
      have hne : other ∉ [position] := by
        rw [List.mem_singleton]
        rintro rfl
        exact (List.nodup_cons.1 hleaves.nodup).1 (List.mem_append_left _ hother)
      rw [hdetached.methodAt?_eq, if_neg hne]
    refine ⟨rest, ?_, hdetached.trans hlater, hpeelable⟩
    rw [removeLeaves, hnext]
    simp only [bind, Except.bind, hrest, hmethods]
    rw [methodsAt, methodsAt, List.filterMap_cons, hmethod]
    rfl

/-! ### Cutting calls -/

/-- The graph after the calls in some slots were cut, in this order. -/
def cutSlots (graph : CallGraph) (cut : List Nat) : CallGraph :=
  { graph.mapSlots (CallSlot.cut cut) with leaves := cut }

private theorem cutSlots_nil {graph : CallGraph} (hleaves : graph.leaves = []) : graph.cutSlots [] = graph := by
  have hcut : CallSlot.cut [] = fun _ slot => slot := by
    funext position slot
    simp [CallSlot.cut]
  rw [cutSlots, hcut, mapSlots_id, ← hleaves]

theorem slot?_cutSlots (graph : CallGraph) (cut : List Nat) (position : Nat) :
    (graph.cutSlots cut).slot? position = (graph.slot? position).map (CallSlot.cut cut position) :=
  slot?_mapSlots _ position

private theorem methodAt?_cutSlots (graph : CallGraph) (cut : List Nat) :
    (graph.cutSlots cut).methodAt? = graph.methodAt? := by
  funext position
  rw [methodAt?, slot?_cutSlots, Option.map_map]
  rfl

theorem methodsAt_cutSlots (graph : CallGraph) (cut positions : List Nat) :
    (graph.cutSlots cut).methodsAt positions = graph.methodsAt positions := by
  rw [methodsAt, methodAt?_cutSlots]
  rfl

/-- Taking the caller out of every callee, one callee at a time. -/
theorem foldl_modifySlot_callers (caller : Nat) {callees : List Nat} (hnodup : callees.Nodup) (graph : CallGraph) :
    callees.foldl (fun graph callee => graph.modifySlot callee fun target =>
        { target with callers := target.callers.erase caller }) graph
      = graph.mapSlots fun position slot =>
          if position ∈ callees then { slot with callers := slot.callers.erase caller } else slot := by
  induction callees generalizing graph with
  | nil => simp only [List.foldl_nil, List.not_mem_nil, if_false, mapSlots_id]
  | cons callee callees ih =>
    obtain ⟨hhead, htail⟩ := List.nodup_cons.1 hnodup
    rw [List.foldl_cons, ih htail, modifySlot_eq_mapSlots, mapSlots_mapSlots]
    apply mapSlots_congr
    intro position slot _
    by_cases hposition : position = callee
    · simp [hposition, hhead]
    · simp [hposition]

/-- Emptying the callees of one more slot and taking it out of their callers cuts its calls as well. -/
private theorem mapSlots_cut_append {graph : CallGraph} (h : graph.Linked) {position : Nat} {slot : CallSlot}
    (hslot : graph.slot? position = some slot) (cut : List Nat) :
    (((graph.mapSlots (CallSlot.cut cut)).modifySlot position ({ · with callees := [] })).mapSlots
        fun other target => if other ∈ slot.callees then { target with callers := target.callers.erase position }
          else target) = graph.mapSlots (CallSlot.cut (cut ++ [position])) := by
  rw [modifySlot_eq_mapSlots, mapSlots_mapSlots, mapSlots_mapSlots]
  apply mapSlots_congr
  intro other target htarget
  have hfilter : target.callers.filter (· ∉ cut ++ [position]) = (target.callers.filter (· ∉ cut)).erase position := by
    rw [erase_eq_filter_not_mem ((h.callers_nodup other target htarget).filter _), List.filter_filter]
    apply List.filter_congr
    intro caller _
    by_cases heq : caller = position <;> by_cases hcut : caller ∈ cut <;> simp [heq, hcut]
  have hresult : CallSlot.cut (cut ++ [position]) other target =
      { target with
        callees := if other ∈ cut ∨ other = position then [] else target.callees
        callers := (target.callers.filter (· ∉ cut)).erase position } := by
    rw [CallSlot.cut, hfilter]
    simp only [List.mem_append, List.mem_singleton]
  rw [hresult]
  by_cases hcallee : other ∈ slot.callees
  · have hother : other ≠ position := fun heq => h.no_self_call position slot hslot (heq ▸ hcallee)
    simp [CallSlot.cut, hother, hcallee]
  · have hcallers : (target.callers.filter (· ∉ cut)).erase position = target.callers.filter (· ∉ cut) := by
      apply List.erase_of_not_mem
      intro hmem
      exact hcallee ((h.mem_callers_iff hslot htarget).1 (List.mem_of_mem_filter hmem))
    rw [hcallers, if_neg hcallee]
    by_cases hother : other = position <;> simp [CallSlot.cut, hother]

/-- Cutting the calls of one more node. Its calls are those it had at first, because no cut of another node changes
them. -/
theorem sever_cutSlots {graph : CallGraph} (h : graph.Linked) {cut : List Nat} {position : Nat} {slot : CallSlot}
    (hslot : graph.slot? position = some slot) (hfresh : position ∉ cut) (severed : List (MethodId × List MethodId))
    (leastDegree : Nat) :
    Cutting.sever ⟨graph.cutSlots cut, severed, leastDegree⟩ position (slot.cut cut position)
      = ⟨graph.cutSlots (cut ++ [position]), severed ++ [((graph.node slot).method, (graph.node slot).callees)],
          leastDegree⟩ := by
  have hcallees : (slot.cut cut position).callees = slot.callees := if_neg hfresh
  have hmethods : ((graph.cutSlots cut).modifySlot position ({ · with callees := [] })).methodsAt slot.callees
      = graph.methodsAt slot.callees := by
    rw [← methodsAt_cutSlots graph cut, methodsAt, methodsAt]
    congr 1
    funext other
    rw [methodAt?, slot?_modifySlot, methodAt?]
    split
    · rw [Option.map_map]
      rfl
    · rfl
  rw [Cutting.sever, hcallees, foldl_modifySlot_callers _ (h.callees_nodup position slot hslot), hmethods]
  have hgraph := congrArg (fun after : CallGraph => { after with leaves := cut ++ [position] })
    (mapSlots_cut_append h hslot cut)
  exact congrArg (fun after => Cutting.mk after _ _) hgraph

theorem Linked.cutSlots {graph : CallGraph} (h : graph.Linked) (cut : List Nat) : (graph.cutSlots cut).Linked := by
  have hmapped : (graph.mapSlots (CallSlot.cut cut)).Linked := by
    apply h.mapSlots
    · exact fun _ _ => rfl
    · intro position slot hslot
      change (if position ∈ cut then [] else slot.callees).Nodup ∧
        position ∉ (if position ∈ cut then [] else slot.callees) ∧
          ∀ callee ∈ (if position ∈ cut then [] else slot.callees), _
      split
      · exact ⟨List.nodup_nil, List.not_mem_nil, fun _ hnone => absurd hnone List.not_mem_nil⟩
      · next hkept =>
        refine ⟨h.callees_nodup position slot hslot, h.no_self_call position slot hslot, fun callee hcallee => ?_⟩
        obtain ⟨target, htarget, hcaller⟩ := h.callee_listed position slot hslot callee hcallee
        exact ⟨target, htarget, List.mem_filter.2 ⟨hcaller, decide_eq_true hkept⟩⟩
    · intro position slot hslot
      refine ⟨(h.callers_nodup position slot hslot).filter _, fun caller hcaller => ?_⟩
      obtain ⟨hmem, hkept⟩ := List.mem_filter.1 hcaller
      obtain ⟨source, hsource, hcallee⟩ := h.caller_listed position slot hslot caller hmem
      refine ⟨source, hsource, ?_⟩
      change position ∈ if caller ∈ cut then [] else source.callees
      rwa [if_neg (of_decide_eq_true hkept)]
  exact ⟨hmapped.callees_nodup, hmapped.callers_nodup, hmapped.callee_listed, hmapped.caller_listed,
    hmapped.no_self_call, hmapped.indexed, hmapped.counted⟩

/-- If nothing was a leaf, the leaves are the slots whose calls were cut. -/
theorem Peelable.cutSlots {graph : CallGraph} (h : graph.Peelable) (hleaves : graph.leaves = []) {cut : List Nat}
    (hnodup : cut.Nodup) (hcut : ∀ position ∈ cut, ∃ slot, graph.slot? position = some slot) :
    (graph.cutSlots cut).Peelable where
  linked := h.linked.cutSlots cut
  leaves := by
    refine ⟨hnodup, fun position => ?_⟩
    rw [slot?_cutSlots]
    constructor
    · intro hposition
      obtain ⟨slot, hslot⟩ := hcut position hposition
      exact ⟨slot.cut cut position, by rw [hslot, Option.map_some], if_pos hposition⟩
    · rintro ⟨slot, hslot, hcallees⟩
      obtain ⟨before, hold, rfl⟩ := Option.map_eq_some_iff.1 hslot
      change (if position ∈ cut then [] else before.callees) = [] at hcallees
      change position ∈ cut
      by_contra hkept
      rw [if_neg hkept] at hcallees
      have hmem := h.mem_leaves.2 ⟨before, hold, hcallees⟩
      rw [hleaves] at hmem
      exact List.not_mem_nil hmem

/-- Once the nodes whose calls were cut are gone, it is as if only they had been removed. -/
theorem Detached.of_cutSlots {graph rest : CallGraph} {cut : List Nat} (h : Detached (graph.cutSlots cut) cut rest) :
    Detached graph cut rest where
  length_slots := h.length_slots.trans (length_slots_mapSlots _)
  slot?_eq := by
    intro position
    rw [h.slot?_eq, slot?_cutSlots]
    split
    · rfl
    · next hkept =>
      rw [Option.map_map]
      apply Option.map_congr
      intro slot _
      simp [CallSlot.detach, CallSlot.cut, hkept, List.filter_filter]

/-! ### Choosing the calls to cut -/

/-- A node whose calls are cut in the first round. -/
def isSingleCall (node : CallNode) : Bool :=
  !node.isBridge && node.degree ≤ 1

/-- The nodes whose calls are cut: those of the first round, or if there is none those with the fewest calls. -/
def cutNodes (nodes : List CallNode) : List CallNode :=
  if (nodes.filter isSingleCall).isEmpty then nodes.filter fun node => nodes.all (node.degree ≤ ·.degree)
  else nodes.filter isSingleCall

theorem cutNodes_subset (nodes : List CallNode) : cutNodes nodes ⊆ nodes := by
  unfold cutNodes
  split
  · exact List.filter_subset_self _
  · exact List.filter_subset_self _

private theorem cutNodes_sublist (nodes : List CallNode) : (cutNodes nodes).Sublist nodes := by
  unfold cutNodes
  split
  · exact List.filter_sublist
  · exact List.filter_sublist

private theorem cutNodes_ne_nil {nodes : List CallNode} (hnodes : nodes ≠ []) : cutNodes nodes ≠ [] := by
  unfold cutNodes
  split
  · have hnonempty : nodes.toFinset.Nonempty := List.toFinset_nonempty_iff nodes |>.2 hnodes
    obtain ⟨least, hleast, hle⟩ := nodes.toFinset.exists_min_image CallNode.degree hnonempty
    have hmem : least ∈ nodes.filter fun node => nodes.all (node.degree ≤ ·.degree) := by
      rw [List.mem_filter, List.all_eq_true]
      refine ⟨List.mem_toFinset.1 hleast, fun other hother => ?_⟩
      exact decide_eq_true (hle other (List.mem_toFinset.2 hother))
    exact List.ne_nil_of_mem hmem
  · next hsome =>
    simpa using hsome

/-- What a round does at a slot: it cuts the calls of the node there if it chooses it, and else it changes at most the
least degree, and never so that it would choose another node. Empty slots are passed over. -/
structure Round (graph : CallGraph) (step : Cutting → Nat → Cutting) (chooses : Nat → CallNode → Bool)
    (passOver : Nat → CallNode → Nat) : Prop where
  cuts : ∀ cut severed least position slot, graph.slot? position = some slot → position ∉ cut →
    chooses least (graph.node slot) = true → step ⟨graph.cutSlots cut, severed, least⟩ position
      = ⟨graph.cutSlots (cut ++ [position]), severed ++ [((graph.node slot).method, (graph.node slot).callees)], least⟩
  passes : ∀ cut severed least position slot, graph.slot? position = some slot → position ∉ cut →
    chooses least (graph.node slot) = false → step ⟨graph.cutSlots cut, severed, least⟩ position
      = ⟨graph.cutSlots cut, severed, passOver least (graph.node slot)⟩
  vacant : ∀ cut severed least position, graph.slot? position = none →
    step ⟨graph.cutSlots cut, severed, least⟩ position = ⟨graph.cutSlots cut, severed, least⟩
  steady : ∀ least node, chooses (passOver least node) = chooses least

/-- The nodes in these slots that a round chooses, with their positions. -/
def chosenAt (graph : CallGraph) (chooses : CallNode → Bool) (positions : List Nat) : List (Nat × CallSlot) :=
  (graph.entriesAt positions).filter fun entry => chooses (graph.node entry.2)

/-- A whole round cuts the calls of all nodes that it chooses, and chooses them by their degrees before the round. -/
theorem Round.foldl_eq {graph : CallGraph} {step : Cutting → Nat → Cutting} {chooses : Nat → CallNode → Bool}
    {passOver : Nat → CallNode → Nat} (h : Round graph step chooses passOver) {positions : List Nat}
    (hnodup : positions.Nodup) (cut : List Nat) (hfresh : ∀ position ∈ positions, position ∉ cut)
    (severed : List (MethodId × List MethodId)) (least : Nat) :
    positions.foldl step ⟨graph.cutSlots cut, severed, least⟩
      = ⟨graph.cutSlots (cut ++ (graph.chosenAt (chooses least) positions).map (·.1)),
          severed ++ (graph.chosenAt (chooses least) positions).map fun entry =>
            ((graph.node entry.2).method, (graph.node entry.2).callees),
          (graph.chosenAt (!chooses least ·) positions).foldl (fun least entry => passOver least (graph.node entry.2))
            least⟩ := by
  induction positions generalizing cut severed least with
  | nil => simp [chosenAt, entriesAt]
  | cons position positions ih =>
    obtain ⟨hhead, htail⟩ := List.nodup_cons.1 hnodup
    have hnew : position ∉ cut := hfresh position List.mem_cons_self
    have hrest : ∀ other ∈ positions, other ∉ cut := fun other hother => hfresh other (List.mem_cons_of_mem _ hother)
    rw [List.foldl_cons]
    cases hslot : graph.slot? position with
    | none =>
      rw [h.vacant cut severed least position hslot, ih htail cut hrest]
      simp [chosenAt, entriesAt, hslot]
    | some slot =>
      cases hchosen : chooses least (graph.node slot) with
      | true =>
        have hstill : ∀ other ∈ positions, other ∉ cut ++ [position] := by
          intro other hother hmem
          rcases List.mem_append.1 hmem with hmem | hmem
          · exact hrest other hother hmem
          · exact hhead (List.mem_singleton.1 hmem ▸ hother)
        rw [h.cuts cut severed least position slot hslot hnew hchosen, ih htail _ hstill]
        simp [chosenAt, entriesAt, hslot, hchosen]
      | false =>
        rw [h.passes cut severed least position slot hslot hnew hchosen, ih htail cut hrest, h.steady]
        simp [chosenAt, entriesAt, hslot, hchosen]

/-- As long as its calls are not cut, a node has the degree it had at first. -/
theorem degree_cut {slot : CallSlot} {cut : List Nat} {position : Nat} (h : position ∉ cut) :
    (slot.cut cut position).degree = slot.degree :=
  congrArg List.length (if_neg h)

private theorem round_cutSingleCall {graph : CallGraph} (h : graph.Linked) :
    Round graph Cutting.cutSingleCall (fun _ => isSingleCall) fun least node => min least node.degree where
  cuts cut severed least position slot hslot hnew hsingle := by
    have hcond : (!(slot.cut cut position).isBridge && decide ((slot.cut cut position).degree ≤ 1)) = true := by
      rw [degree_cut hnew, ← h.degree_node hslot]
      exact hsingle
    rw [Cutting.cutSingleCall, slot?_cutSlots, hslot]
    exact (if_pos hcond).trans (sever_cutSlots h hslot hnew severed least)
  passes cut severed least position slot hslot hnew hsingle := by
    have hcond : ¬(!(slot.cut cut position).isBridge && decide ((slot.cut cut position).degree ≤ 1)) = true := by
      rw [degree_cut hnew, ← h.degree_node hslot]
      exact ne_true_of_eq_false hsingle
    rw [Cutting.cutSingleCall, slot?_cutSlots, hslot]
    refine (if_neg hcond).trans ?_
    rw [degree_cut hnew, h.degree_node hslot]
  vacant cut severed least position hslot := by
    rw [Cutting.cutSingleCall, slot?_cutSlots, hslot]
    rfl
  steady _ _ := rfl

private theorem round_cutLeastDegree {graph : CallGraph} (h : graph.Linked) :
    Round graph Cutting.cutLeastDegree (fun least node => node.degree ≤ least) fun least _ => least where
  cuts cut severed least position slot hslot hnew hleast := by
    have hcond : (slot.cut cut position).degree ≤ least := by
      rw [degree_cut hnew, ← h.degree_node hslot]
      exact of_decide_eq_true hleast
    rw [Cutting.cutLeastDegree, slot?_cutSlots, hslot]
    exact (if_pos hcond).trans (sever_cutSlots h hslot hnew severed least)
  passes cut severed least position slot hslot hnew hleast := by
    have hcond : ¬(slot.cut cut position).degree ≤ least := by
      rw [degree_cut hnew, ← h.degree_node hslot]
      exact of_decide_eq_false hleast
    rw [Cutting.cutLeastDegree, slot?_cutSlots, hslot]
    exact if_neg hcond
  vacant cut severed least position hslot := by
    rw [Cutting.cutLeastDegree, slot?_cutSlots, hslot]
    rfl
  steady _ _ := rfl

/-! ### Chosen nodes -/

private theorem slot?_of_mem_chosenAt {graph : CallGraph} {chooses : CallNode → Bool} {positions : List Nat}
    {position : Nat}
    (h : position ∈ (graph.chosenAt chooses positions).map (·.1)) : ∃ slot, graph.slot? position = some slot := by
  obtain ⟨⟨_, slot⟩, hmem, rfl⟩ := List.mem_map.1 h
  exact ⟨slot, (mem_entriesAt.1 (List.mem_of_mem_filter hmem)).2⟩

private theorem chosenAt_nodup (graph : CallGraph) (chooses : CallNode → Bool) :
    ((graph.chosenAt chooses graph.positions).map (·.1)).Nodup :=
  (map_fst_entries_nodup graph).sublist (List.filter_sublist.map _)

theorem map_node_chosenAt (graph : CallGraph) (chooses : CallNode → Bool) :
    (graph.chosenAt chooses graph.positions).map (fun entry => graph.node entry.2) = graph.nodes.filter chooses := by
  rw [nodes, List.filter_map]
  rfl

private theorem methodsAt_chosenAt (graph : CallGraph) (chooses : CallNode → Bool) :
    graph.methodsAt ((graph.chosenAt chooses graph.positions).map (·.1))
      = (graph.nodes.filter chooses).map (·.method) := by
  rw [← map_node_chosenAt, List.map_map, methodsAt, List.filterMap_map, ← List.filterMap_eq_map]
  apply List.filterMap_congr
  rintro ⟨position, slot⟩ hmem
  exact methodAt?_of_slot? (mem_entriesAt.1 (List.mem_of_mem_filter hmem)).2

private theorem le_foldl_min_degree (nodes : List CallNode) (bound degree : Nat) :
    degree ≤ nodes.foldl (fun least node => min least node.degree) bound ↔
      degree ≤ bound ∧ ∀ node ∈ nodes, degree ≤ node.degree := by
  induction nodes generalizing bound with
  | nil => simp
  | cons node nodes ih =>
    rw [List.foldl_cons, ih, le_min_iff, List.forall_mem_cons, and_assoc]

/-- A round over all slots of a graph without leaves, told by the nodes. -/
theorem Round.foldl_positions_eq {graph : CallGraph} {step : Cutting → Nat → Cutting} {chooses : Nat → CallNode → Bool}
    {passOver : Nat → CallNode → Nat} (h : Round graph step chooses passOver) (hleaves : graph.leaves = [])
    (least : Nat) :
    graph.positions.foldl step ⟨graph, [], least⟩
      = ⟨graph.cutSlots ((graph.chosenAt (chooses least) graph.positions).map (·.1)),
          (graph.nodes.filter (chooses least)).map fun node => (node.method, node.callees),
          (graph.nodes.filter (!chooses least ·)).foldl passOver least⟩ := by
  have hnodup : graph.positions.Nodup := List.nodup_range
  have hround := h.foldl_eq hnodup [] (fun _ _ => List.not_mem_nil) [] least
  rw [cutSlots_nil hleaves, List.nil_append, List.nil_append] at hround
  rw [hround, ← map_node_chosenAt graph (chooses least), ← map_node_chosenAt graph (!chooses least ·), List.map_map,
    List.foldl_map]
  rfl

/-- Cutting cycles cuts the calls of the chosen nodes and records the calls they had before. -/
theorem breakCycles_eq {graph : CallGraph} (h : graph.Linked) (hleaves : graph.leaves = []) :
    ∃ chooses : CallNode → Bool, cutNodes graph.nodes = graph.nodes.filter chooses ∧
      graph.breakCycles.graph = graph.cutSlots ((graph.chosenAt chooses graph.positions).map (·.1)) ∧
      graph.breakCycles.severed = (cutNodes graph.nodes).map fun node => (node.method, node.callees) := by
  rw [breakCycles, (round_cutSingleCall h).foldl_positions_eq hleaves]
  by_cases hsingle : graph.nodes.filter isSingleCall = []
  · -- nothing was cut in the first round, so the least degree is the least of all
    have hchosen : (graph.chosenAt isSingleCall graph.positions).map (·.1) = [] := by
      have hnodes := map_node_chosenAt graph isSingleCall
      rw [hsingle, List.map_eq_nil_iff] at hnodes
      rw [hnodes, List.map_nil]
    have hall : graph.nodes.filter (!isSingleCall ·) = graph.nodes := by
      rw [List.filter_eq_self]
      intro node hnode
      simpa using List.filter_eq_nil_iff.1 hsingle node hnode
    have hleast : graph.nodes.filter (fun node => decide (node.degree ≤
        graph.nodes.foldl (fun least node => min least node.degree) graph.size))
        = graph.nodes.filter fun node => graph.nodes.all (node.degree ≤ ·.degree) := by
      apply List.filter_congr
      intro node hnode
      rw [Bool.eq_iff_iff, decide_eq_true_iff, le_foldl_min_degree, List.all_eq_true]
      have hsize : node.degree ≤ graph.size := h.size_eq ▸ Nat.le_of_lt (h.balanced.degree_lt hnode)
      simp [hsize]
    have hcut : cutNodes graph.nodes = graph.nodes.filter fun node => graph.nodes.all (node.degree ≤ ·.degree) := by
      rw [cutNodes, hsingle]
      rfl
    rw [hchosen, hsingle, hall, cutSlots_nil hleaves]
    simp only [hleaves, List.isEmpty_nil, if_true, List.map_nil]
    rw [(round_cutLeastDegree h).foldl_positions_eq hleaves, hcut, ← hleast]
    exact ⟨_, rfl, rfl, rfl⟩
  · have hcut : cutNodes graph.nodes = graph.nodes.filter isSingleCall := by
      rw [cutNodes, if_neg (by simpa using hsingle)]
    have hsome : ((graph.chosenAt isSingleCall graph.positions).map (·.1)).isEmpty = false := by
      rw [← map_node_chosenAt, List.map_eq_nil_iff] at hsingle
      simpa using hsingle
    rw [hcut]
    refine ⟨isSingleCall, rfl, ?_⟩
    simp only [cutSlots, hsome, Bool.false_eq_true, if_false, and_self]

/-! ### A wave -/

/-- The wave that is picked next from a graph with nodes: its frontier, or the methods whose calls have to be cut. -/
def nextWave (graph : CallGraph) : Wave :=
  if graph.frontier.isEmpty then
    { methods := (cutNodes graph.nodes).map (·.method)
      brokeCycles := true
      severed := (cutNodes graph.nodes).map fun node => (node.method, node.callees) }
  else { methods := graph.frontier }

theorem nextWave_of_frontier {graph : CallGraph} (hfrontier : graph.frontier ≠ []) :
    graph.nextWave = { methods := graph.frontier } :=
  if_neg (by simpa using hfrontier)

theorem nextWave_of_cycle {graph : CallGraph} (hfrontier : graph.frontier = []) :
    graph.nextWave =
      { methods := (cutNodes graph.nodes).map (·.method)
        brokeCycles := true
        severed := (cutNodes graph.nodes).map fun node => (node.method, node.callees) } :=
  if_pos (by simpa using hfrontier)

theorem nextWave_methods_subset {graph : CallGraph} (h : graph.Peelable) : graph.nextWave.methods ⊆ graph.methods := by
  by_cases hfrontier : graph.frontier = []
  · rw [nextWave_of_cycle hfrontier]
    exact List.map_subset _ (cutNodes_subset graph.nodes)
  · rw [nextWave_of_frontier hfrontier]
    intro method hmethod
    obtain ⟨node, hnode, heq, -⟩ := h.mem_frontier.1 hmethod
    exact mem_methods.2 ⟨node, hnode, heq⟩

theorem nextWave_methods_nodup {graph : CallGraph} (h : graph.Peelable) : graph.nextWave.methods.Nodup := by
  by_cases hfrontier : graph.frontier = []
  · rw [nextWave_of_cycle hfrontier]
    exact h.balanced.distinct.sublist ((cutNodes_sublist graph.nodes).map _)
  · rw [nextWave_of_frontier hfrontier]
    exact h.frontier_nodup

theorem nextWave_methods_ne_nil {graph : CallGraph} (hnodes : graph.nodes ≠ []) : graph.nextWave.methods ≠ [] := by
  by_cases hfrontier : graph.frontier = []
  · rw [nextWave_of_cycle hfrontier]
    simpa using cutNodes_ne_nil hnodes
  · rw [nextWave_of_frontier hfrontier]
    exact hfrontier

/-- What picking says of a wave: it is refused at its first method that has been processed. -/
def acceptWave (isProcessed : MethodId → Bool) (wave : Wave) : Except Error (Option Wave) :=
  match wave.methods.find? isProcessed with
  | some method => .error (.alreadyProcessed method)
  | none => .ok (some wave)

theorem acceptWave_of_fresh {isProcessed : MethodId → Bool} {wave : Wave}
    (hfresh : ∀ method ∈ wave.methods, isProcessed method = false) : acceptWave isProcessed wave = .ok (some wave) := by
  have hnone : wave.methods.find? isProcessed = none := by
    rw [List.find?_eq_none]
    intro method hmethod
    rw [hfresh method hmethod]
    exact Bool.false_ne_true
  rw [acceptWave, hnone]

/-- The leaves come out as a wave, and are gone from the graph even if it is refused. -/
theorem takeWave_eq {graph : CallGraph} (h : graph.Peelable) (hleaves : graph.leaves ≠ []) (brokeCycles : Bool)
    (severed : List (MethodId × List MethodId)) :
    ∃ rest, (∀ isProcessed, graph.takeWave isProcessed brokeCycles severed
        = (rest, acceptWave isProcessed { methods := graph.frontier, brokeCycles, severed })) ∧
      Detached graph graph.leaves rest ∧ rest.Peelable := by
  have hlisted : LeavesListed { graph with leaves := [] } graph.leaves := by
    constructor
    · rw [List.append_nil]
      exact h.leaves.nodup
    · rw [List.append_nil]
      exact h.leaves.mem_iff
  have hlinked : ({ graph with leaves := [] } : CallGraph).Linked := { h.linked with }
  obtain ⟨rest, hrest, hdetached, hpeelable⟩ := removeLeaves_eq graph.leaves hlinked hlisted
  refine ⟨rest, ?_, ⟨hdetached.length_slots, hdetached.slot?_eq⟩, hpeelable⟩
  intro isProcessed
  have hfrontier : graph.frontier.isEmpty = false := by
    rw [← h.isEmpty_leaves]
    simpa using hleaves
  have hremoved : removeLeaves graph.leaves { graph with leaves := [] } = .ok (graph.frontier, rest) := hrest
  rw [takeWave, hremoved, acceptWave]
  simp only [hfrontier, Bool.false_eq_true, if_false]
  cases graph.frontier.find? isProcessed <;> rfl

/-- **Picking a wave.** It takes the next wave and leaves the graph without these methods and the edges at them, again
between two waves. The wave is handed out unless one of its methods has been processed. -/
theorem pick_eq_accept {graph : CallGraph} (h : graph.Peelable) (hnodes : graph.nodes ≠ []) :
    ∃ rest, (∀ isProcessed, graph.pick isProcessed = (rest, acceptWave isProcessed graph.nextWave)) ∧
      rest.nodes = remaining graph.nodes graph.nextWave.methods ∧ rest.Peelable := by
  have hempty : graph.isEmpty = false := by
    rw [Bool.eq_false_iff]
    exact mt h.linked.isEmpty_iff.1 hnodes
  by_cases hfrontier : graph.frontier = []
  · have hleaves : graph.leaves = [] := by
      rw [← List.isEmpty_iff, h.isEmpty_leaves, hfrontier, List.isEmpty_nil]
    obtain ⟨chooses, hcut, hgraph, hsevered⟩ := breakCycles_eq h.linked hleaves
    let cut := (graph.chosenAt chooses graph.positions).map (·.1)
    have hmethods : (graph.cutSlots cut).frontier = (cutNodes graph.nodes).map (·.method) := by
      rw [hcut, ← methodsAt_chosenAt]
      exact methodsAt_cutSlots graph cut cut
    have hpeelable : (graph.cutSlots cut).Peelable :=
      h.cutSlots hleaves (chosenAt_nodup graph chooses) fun _ => slot?_of_mem_chosenAt
    have hne : (graph.cutSlots cut).leaves ≠ [] := by
      intro hnil
      have hnone : (graph.cutSlots cut).frontier = [] := by rw [frontier, hnil]; rfl
      rw [hmethods, List.map_eq_nil_iff] at hnone
      exact cutNodes_ne_nil hnodes hnone
    obtain ⟨rest, hrest, hdetached, hbetween⟩ := takeWave_eq hpeelable hne true
      ((cutNodes graph.nodes).map fun node => (node.method, node.callees))
    rw [nextWave_of_cycle hfrontier]
    refine ⟨rest, ?_, ?_, hbetween⟩
    · intro isProcessed
      have hpick : graph.pick isProcessed
          = graph.breakCycles.graph.takeWave isProcessed true graph.breakCycles.severed := by
        rw [pick, hempty, hleaves]
        rfl
      rw [hpick, hgraph, hsevered, ← hmethods]
      exact hrest isProcessed
    · have hgone : graph.methodsAt cut = (cutNodes graph.nodes).map (·.method) := by
        rw [← hmethods]
        exact (methodsAt_cutSlots graph cut cut).symm
      rw [← hgone]
      exact hdetached.of_cutSlots.nodes_eq h.linked
  · have hleaves : graph.leaves.isEmpty = false := by
      rw [h.isEmpty_leaves]
      simpa using hfrontier
    rw [nextWave_of_frontier hfrontier]
    obtain ⟨rest, hrest, hdetached, hbetween⟩ := takeWave_eq h (by simpa using hleaves) false []
    refine ⟨rest, ?_, hdetached.nodes_eq h.linked, hbetween⟩
    intro isProcessed
    rw [pick, hempty, hleaves]
    exact hrest isProcessed

/-- A pick from a graph without processed methods never fails. -/
theorem pick_eq {graph : CallGraph} (h : graph.Peelable) (hnodes : graph.nodes ≠ []) {isProcessed : MethodId → Bool}
    (hfresh : ∀ method ∈ graph.methods, isProcessed method = false) :
    ∃ rest, graph.pick isProcessed = (rest, .ok (some graph.nextWave)) ∧
      rest.nodes = remaining graph.nodes graph.nextWave.methods ∧ rest.Peelable := by
  obtain ⟨rest, hpick, hrest⟩ := pick_eq_accept h hnodes
  have hwave := acceptWave_of_fresh fun method hmethod => hfresh method (nextWave_methods_subset h hmethod)
  exact ⟨rest, by rw [hpick, hwave], hrest⟩

theorem pick_of_isEmpty {graph : CallGraph} (h : graph.Peelable) (hnodes : graph.nodes = [])
    (isProcessed : MethodId → Bool) : graph.pick isProcessed = (graph, .ok none) := by
  have hempty : graph.isEmpty = true := h.linked.isEmpty_iff.2 hnodes
  rw [pick, hempty]
  rfl

end CallGraph

end Bytecode
