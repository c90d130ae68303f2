import Bytecode.CallGraph.Construction
import Bytecode.Proofs.CallGraph.Picking
import Bytecode.Proofs.Program.Coherence
/-!
# The call graph that a program starts with

The graph is built from two operations, adding a node and recording a call site between nodes. Both keep its slots linked,
and both are operations on the nodes as they are read from outside: `withNode` adds a node to a list and `withCall` records
a call site in it. So the nodes of the built graph are known without its slots.

A call site finds a node for whatever it may run, so the nodes are the program's own methods together with the targets of
their calls. In a program that was declared those targets are methods of the program themselves: the graph has exactly
one node for each method of the program.
-/

namespace Bytecode

/-- A node after one call site was recorded. -/
def CallNode.recordCall (caller callee : MethodId) (node : CallNode) : CallNode :=
  { node with
    isSelfRecursive := node.isSelfRecursive || (node.method = caller && caller = callee)
    callees := if node.method = caller ∧ caller ≠ callee then appendNew node.callees callee else node.callees
    callers := if node.method = callee ∧ caller ≠ callee then appendNew node.callers caller else node.callers
    invokeCount := if node.method = callee then node.invokeCount + 1 else node.invokeCount }

theorem CallNode.callees_recordCall (caller callee : MethodId) (node : CallNode) :
    (node.recordCall caller callee).callees
      = if node.method = caller ∧ caller ≠ callee then appendNew node.callees callee else node.callees :=
  rfl

theorem CallNode.callers_recordCall (caller callee : MethodId) (node : CallNode) :
    (node.recordCall caller callee).callers
      = if node.method = callee ∧ caller ≠ callee then appendNew node.callers caller else node.callers :=
  rfl

theorem mem_appendNew {α : Type} [DecidableEq α] {elements : List α} {element other : α} :
    other ∈ appendNew elements element ↔ other ∈ elements ∨ other = element := by
  unfold appendNew
  split
  · next h =>
    refine ⟨.inl, ?_⟩
    rintro (hmem | rfl)
    · exact hmem
    · exact h
  · rw [List.mem_append, List.mem_singleton]

private theorem appendNew_nodup {α : Type} [DecidableEq α] {elements : List α} (h : elements.Nodup) (element : α) :
    (appendNew elements element).Nodup := by
  unfold appendNew
  split
  · exact h
  · next hfresh =>
    rw [List.nodup_append]
    refine ⟨h, List.nodup_singleton _, ?_⟩
    intro left hleft right hright
    rw [List.mem_singleton.1 hright]
    exact fun heq => hfresh (heq ▸ hleft)

/-- A node in its slot after one call site was recorded. -/
def CallSlot.recordCall (caller callee position : Nat) (slot : CallSlot) : CallSlot :=
  { slot with
    isSelfRecursive := slot.isSelfRecursive || (position = caller && caller = callee)
    callees := if position = caller ∧ caller ≠ callee then appendNew slot.callees callee else slot.callees
    callers := if position = callee ∧ caller ≠ callee then appendNew slot.callers caller else slot.callers
    invokeCount := if position = callee then slot.invokeCount + 1 else slot.invokeCount }

namespace CallGraph

variable {graph : CallGraph}

/-! ### Nodes -/

theorem ensureNode_of_found {method : MethodId} {position : Nat} (h : graph.index.find? method = some position)
    (isBridge : Bool) : graph.ensureNode method isBridge = (graph, position) := by
  rw [ensureNode, h]

theorem ensureNode_of_fresh {method : MethodId} (h : graph.index.find? method = none) (isBridge : Bool) :
    graph.ensureNode method isBridge =
      ({ graph with
          slots := graph.slots ++ [some { method, isBridge }]
          index := graph.index.insert method graph.slots.length
          live := graph.live + 1 }, graph.slots.length) := by
  rw [ensureNode, h]

theorem slot?_ensureNode {method : MethodId} (h : graph.index.find? method = none) (isBridge : Bool) (position : Nat) :
    (graph.ensureNode method isBridge).1.slot? position
      = if position = graph.slots.length then some { method, isBridge } else graph.slot? position := by
  rw [ensureNode_of_fresh h, slot?, List.getElem?_append, slot?]
  split
  · next hlt => rw [if_neg (Nat.ne_of_lt hlt)]
  · next hge =>
    by_cases heq : position = graph.slots.length
    · simp [heq]
    · have hnone : graph.slots[position]? = none := List.getElem?_eq_none (by omega)
      have hgt : position - graph.slots.length ≠ 0 := by omega
      simp [heq, hnone, hgt]

/-- A node keeps its slot when another one is added. -/
theorem slot?_ensureNode_of_some {position : Nat} {slot : CallSlot} (hslot : graph.slot? position = some slot)
    (method : MethodId) (isBridge : Bool) : (graph.ensureNode method isBridge).1.slot? position = some slot := by
  cases hfound : graph.index.find? method with
  | some found => rwa [ensureNode_of_found hfound]
  | none => rwa [slot?_ensureNode hfound, if_neg (Nat.ne_of_lt (lt_of_slot? hslot))]

private theorem methodAt?_ensureNode_of_some {position : Nat} {other : MethodId}
    (hmethod : graph.methodAt? position = some other) (method : MethodId) (isBridge : Bool) :
    (graph.ensureNode method isBridge).1.methodAt? position = some other := by
  obtain ⟨slot, hslot, rfl⟩ := methodAt?_eq_some.1 hmethod
  exact methodAt?_of_slot? (slot?_ensureNode_of_some hslot method isBridge)

private theorem methodAt?_ensureNode (h : graph.Linked) (method : MethodId) (isBridge : Bool) :
    (graph.ensureNode method isBridge).1.methodAt? (graph.ensureNode method isBridge).2 = some method := by
  cases hfound : graph.index.find? method with
  | some found =>
    rw [ensureNode_of_found hfound]
    exact (h.indexed method found).1 hfound
  | none =>
    have hposition : (graph.ensureNode method isBridge).2 = graph.slots.length := by rw [ensureNode_of_fresh hfound]
    rw [hposition, methodAt?, slot?_ensureNode hfound, if_pos rfl]
    rfl

private theorem find?_index_ensureNode (h : graph.Linked) {method : MethodId} (hfound : graph.index.find? method = none)
    (isBridge : Bool) (other : MethodId) (position : Nat) :
    (graph.ensureNode method isBridge).1.index.find? other = some position ↔
      (graph.ensureNode method isBridge).1.methodAt? position = some other := by
  have hindex : (graph.ensureNode method isBridge).1.index = graph.index.insert method graph.slots.length := by
    rw [ensureNode_of_fresh hfound]
  have hend : graph.methodAt? graph.slots.length = none := by
    rw [methodAt?, slot?, List.getElem?_eq_none (Nat.le_refl _)]
    rfl
  rw [hindex, Table.find?_insert, methodAt?, slot?_ensureNode hfound]
  by_cases hother : other = method
  · subst hother
    have hnowhere : graph.methodAt? position ≠ some other := by
      rw [Ne, ← h.indexed, hfound]
      intro hnone
      cases hnone
    by_cases hposition : position = graph.slots.length
    · simp [hposition]
    · rw [if_pos rfl, if_neg hposition]
      exact iff_of_false (fun heq => hposition (Option.some.inj heq).symm) hnowhere
  · rw [if_neg hother, h.indexed]
    by_cases hposition : position = graph.slots.length
    · simp [hposition, hend, Ne.symm hother]
    · rw [if_neg hposition]
      rfl

theorem Linked.ensureNode (h : graph.Linked) (method : MethodId) (isBridge : Bool) :
    (graph.ensureNode method isBridge).1.Linked := by
  cases hfound : graph.index.find? method with
  | some found => rwa [ensureNode_of_found hfound]
  | none =>
    -- the new node has no edges, so every edge is one of the old graph
    have hcases {position : Nat} {slot : CallSlot}
        (hslot : (graph.ensureNode method isBridge).1.slot? position = some slot) :
        graph.slot? position = some slot ∨ slot.callees = [] ∧ slot.callers = [] := by
      rw [slot?_ensureNode hfound] at hslot
      split at hslot
      · rw [← Option.some.inj hslot]
        exact .inr ⟨rfl, rfl⟩
      · exact .inl hslot
    constructor
    case callees_nodup =>
      intro position slot hslot
      rcases hcases hslot with hold | ⟨hnil, -⟩
      · exact h.callees_nodup position slot hold
      · rw [hnil]
        exact List.nodup_nil
    case callers_nodup =>
      intro position slot hslot
      rcases hcases hslot with hold | ⟨-, hnil⟩
      · exact h.callers_nodup position slot hold
      · rw [hnil]
        exact List.nodup_nil
    case callee_listed =>
      intro position slot hslot callee hcallee
      rcases hcases hslot with hold | ⟨hnil, -⟩
      · obtain ⟨target, htarget, hlisted⟩ := h.callee_listed position slot hold callee hcallee
        exact ⟨target, slot?_ensureNode_of_some htarget method isBridge, hlisted⟩
      · rw [hnil] at hcallee
        exact absurd hcallee List.not_mem_nil
    case caller_listed =>
      intro position slot hslot caller hcaller
      rcases hcases hslot with hold | ⟨-, hnil⟩
      · obtain ⟨source, hsource, hlisted⟩ := h.caller_listed position slot hold caller hcaller
        exact ⟨source, slot?_ensureNode_of_some hsource method isBridge, hlisted⟩
      · rw [hnil] at hcaller
        exact absurd hcaller List.not_mem_nil
    case no_self_call =>
      intro position slot hslot
      rcases hcases hslot with hold | ⟨hnil, -⟩
      · exact h.no_self_call position slot hold
      · rw [hnil]
        exact List.not_mem_nil
    case indexed => exact find?_index_ensureNode h hfound isBridge
    case counted =>
      rw [ensureNode_of_fresh hfound, List.countP_append, h.counted]
      rfl

/-- The nodes with one for the method, a new one unless it is there. -/
def withNode (nodes : List CallNode) (method : MethodId) (isBridge : Bool) : List CallNode :=
  if method ∈ nodes.map (·.method) then nodes else nodes ++ [({ method, isBridge } : CallNode)]

private theorem nodes_ensureNode (h : graph.Linked) (method : MethodId) (isBridge : Bool) :
    (graph.ensureNode method isBridge).1.nodes = withNode graph.nodes method isBridge := by
  have hmem : method ∈ graph.nodes.map (·.method) ↔ ∃ position, graph.index.find? method = some position := by
    change method ∈ graph.methods ↔ _
    simp only [mem_methods_iff_methodAt?, h.indexed]
  cases hfound : graph.index.find? method with
  | some found => rw [ensureNode_of_found hfound, withNode, if_pos (hmem.2 ⟨found, hfound⟩)]
  | none =>
    have hfresh : method ∉ graph.nodes.map (·.method) := by
      rw [hmem, hfound]
      rintro ⟨position, hnone⟩
      cases hnone
    have hnode {position : Nat} {slot : CallSlot} (hslot : graph.slot? position = some slot) :
        (graph.ensureNode method isBridge).1.node slot = graph.node slot := by
      have hkept {positions : List Nat} (hends : ∀ other ∈ positions, ∃ found, graph.methodAt? other = some found) :
          (graph.ensureNode method isBridge).1.methodsAt positions = graph.methodsAt positions := by
        apply List.filterMap_congr
        intro other hother
        obtain ⟨found, hmethod⟩ := hends other hother
        rw [methodAt?_ensureNode_of_some hmethod, hmethod]
      simp only [node]
      rw [hkept fun other hother => h.exists_methodAt? hslot (.inl hother),
        hkept fun other hother => h.exists_methodAt? hslot (.inr hother)]
    have hlength : (graph.ensureNode method isBridge).1.slots.length = graph.slots.length + 1 := by
      rw [ensureNode_of_fresh hfound, List.length_append, List.length_singleton]
    rw [withNode, if_neg hfresh, nodes_eq_filterMap, positions, hlength, List.range_succ, List.filterMap_append,
      nodes_eq_filterMap]
    congr 1
    · apply List.filterMap_congr
      intro position hposition
      rw [slot?_ensureNode hfound, if_neg (Nat.ne_of_lt (List.mem_range.1 hposition))]
      exact Option.map_congr fun slot hslot => hnode hslot
    · rw [List.filterMap_cons, slot?_ensureNode hfound, if_pos rfl]
      rfl

/-! ### Call sites -/

theorem addCall_eq_mapSlots (graph : CallGraph) (caller callee : Nat) :
    graph.addCall caller callee = graph.mapSlots (CallSlot.recordCall caller callee) := by
  rw [addCall]
  by_cases h : caller = callee
  · subst h
    simp only [if_true, modifySlot_eq_mapSlots, mapSlots_mapSlots]
    apply mapSlots_congr
    intro position slot _
    by_cases hposition : position = caller <;> simp [CallSlot.recordCall, hposition]
  · simp only [h, if_false, modifySlot_eq_mapSlots, mapSlots_mapSlots]
    apply mapSlots_congr
    intro position slot _
    by_cases hcaller : position = caller
    · simp [CallSlot.recordCall, hcaller, h]
    · by_cases hcallee : position = callee <;> simp [CallSlot.recordCall, hcaller, hcallee, Ne.symm h, h]

theorem slot?_addCall (caller callee position : Nat) :
    (graph.addCall caller callee).slot? position
      = (graph.slot? position).map (CallSlot.recordCall caller callee position) := by
  rw [addCall_eq_mapSlots, slot?_mapSlots]

theorem methodAt?_addCall (graph : CallGraph) (caller callee : Nat) :
    (graph.addCall caller callee).methodAt? = graph.methodAt? := by
  funext position
  rw [methodAt?, slot?_addCall, Option.map_map]
  rfl

theorem mem_slot_callees {caller callee position other : Nat} {slot : CallSlot} :
    other ∈ (slot.recordCall caller callee position).callees ↔
      other ∈ slot.callees ∨ position = caller ∧ other = callee ∧ caller ≠ callee := by
  change other ∈ (if position = caller ∧ caller ≠ callee then appendNew slot.callees callee else slot.callees) ↔ _
  split
  · next h =>
    rw [mem_appendNew]
    tauto
  · next h => tauto

theorem mem_slot_callers {caller callee position other : Nat} {slot : CallSlot} :
    other ∈ (slot.recordCall caller callee position).callers ↔
      other ∈ slot.callers ∨ position = callee ∧ other = caller ∧ caller ≠ callee := by
  change other ∈ (if position = callee ∧ caller ≠ callee then appendNew slot.callers caller else slot.callers) ↔ _
  split
  · next h =>
    rw [mem_appendNew]
    tauto
  · next h => tauto

theorem Linked.addCall (h : graph.Linked) {caller callee : Nat} {source target : CallSlot}
    (hcaller : graph.slot? caller = some source) (hcallee : graph.slot? callee = some target) :
    (graph.addCall caller callee).Linked := by
  rw [addCall_eq_mapSlots]
  apply h.mapSlots
  · exact fun _ _ => rfl
  · intro position slot hslot
    refine ⟨?_, ?_, ?_⟩
    · change (if position = caller ∧ caller ≠ callee then appendNew slot.callees callee else slot.callees).Nodup
      split
      · exact appendNew_nodup (h.callees_nodup position slot hslot) callee
      · exact h.callees_nodup position slot hslot
    · intro hself
      rcases mem_slot_callees.1 hself with hmem | ⟨hposition, heq, hne⟩
      · exact h.no_self_call position slot hslot hmem
      · exact hne (hposition.symm.trans heq)
    · intro other hother
      rcases mem_slot_callees.1 hother with hmem | ⟨hposition, rfl, hne⟩
      · obtain ⟨found, hfound, hlisted⟩ := h.callee_listed position slot hslot other hmem
        exact ⟨found, hfound, mem_slot_callers.2 (.inl hlisted)⟩
      · exact ⟨target, hcallee, mem_slot_callers.2 (.inr ⟨rfl, hposition, hne⟩)⟩
  · intro position slot hslot
    refine ⟨?_, ?_⟩
    · change (if position = callee ∧ caller ≠ callee then appendNew slot.callers caller else slot.callers).Nodup
      split
      · exact appendNew_nodup (h.callers_nodup position slot hslot) caller
      · exact h.callers_nodup position slot hslot
    · intro other hother
      rcases mem_slot_callers.1 hother with hmem | ⟨hposition, rfl, hne⟩
      · obtain ⟨found, hfound, hlisted⟩ := h.caller_listed position slot hslot other hmem
        exact ⟨found, hfound, mem_slot_callees.2 (.inl hlisted)⟩
      · exact ⟨source, hcaller, mem_slot_callees.2 (.inr ⟨rfl, hposition, hne⟩)⟩

/-- A call site between slots is one between the methods in them. -/
theorem nodes_addCall (h : graph.Linked) {caller callee : Nat} {source target : MethodId}
    (hcaller : graph.methodAt? caller = some source) (hcallee : graph.methodAt? callee = some target) :
    (graph.addCall caller callee).nodes = graph.nodes.map (CallNode.recordCall source target) := by
  have hends {position : Nat} {method : MethodId} (hmethod : graph.methodAt? position = some method)
      {other : Nat} {name : MethodId} (hname : graph.methodAt? other = some name) :
      name = method ↔ other = position := by
    constructor
    · rintro rfl
      exact h.position_unique hname hmethod
    · rintro rfl
      exact Option.some.inj (hname.symm.trans hmethod)
  have hjoined : source = target ↔ caller = callee := hends hcallee hcaller
  have happend {position : Nat} {method : MethodId} (hmethod : graph.methodAt? position = some method)
      (positions : List Nat) :
      graph.methodsAt (appendNew positions position) = appendNew (graph.methodsAt positions) method := by
    have hmem : method ∈ graph.methodsAt positions ↔ position ∈ positions := h.mem_methodsAt_iff hmethod
    unfold appendNew
    by_cases hposition : position ∈ positions
    · rw [if_pos hposition, if_pos (hmem.2 hposition)]
    · rw [if_neg hposition, if_neg (mt hmem.1 hposition), methodsAt, List.filterMap_append, List.filterMap_cons, hmethod]
      rfl
  rw [nodes_eq_filterMap, nodes_eq_filterMap, List.map_filterMap, positions, addCall_eq_mapSlots, length_slots_mapSlots]
  apply List.filterMap_congr
  intro position _
  rw [slot?_mapSlots, Option.map_map, Option.map_map]
  apply Option.map_congr
  intro slot hslot
  have hsource : slot.method = source ↔ position = caller := hends hcaller (methodAt?_of_slot? hslot)
  have htarget : slot.method = target ↔ position = callee := hends hcallee (methodAt?_of_slot? hslot)
  have hmethods : (graph.mapSlots (CallSlot.recordCall caller callee)).methodsAt = graph.methodsAt := by
    funext positions
    rw [← addCall_eq_mapSlots, methodsAt, methodAt?_addCall]
    rfl
  simp only [Function.comp, node, CallNode.recordCall, CallSlot.recordCall, hmethods, hsource, htarget, Ne, hjoined]
  congr 1
  · split
    · rw [happend hcallee]
    · rfl
  · split
    · rw [happend hcaller]
    · rfl

/-! ### Methods with their calls -/

/-- The nodes after a call site in the caller that may run the target. -/
def withCall (program : Program) (caller : MethodId) (nodes : List CallNode) (target : MethodId) : List CallNode :=
  (withNode nodes target ((program.method? target).any (·.isBridge))).map (CallNode.recordCall caller target)

/-- The nodes with one for the method and all its call sites. -/
def withMethod (program : Program) (mapping : MethodMapping) (nodes : List CallNode) (method : MethodId) :
    List CallNode :=
  (program.callTargets mapping method).foldl (withCall program method)
    (withNode nodes method ((program.method? method).any (·.isBridge)))

private theorem addTarget_spec (h : graph.Linked) (program : Program) {caller : Nat} {source : MethodId}
    (hcaller : graph.methodAt? caller = some source) (target : MethodId) :
    (graph.addTarget program caller target).Linked ∧
      (graph.addTarget program caller target).nodes = withCall program source graph.nodes target ∧
      (graph.addTarget program caller target).methodAt? caller = some source := by
  have hlinked := h.ensureNode target ((program.method? target).any (·.isBridge))
  have hsource := methodAt?_ensureNode_of_some hcaller target ((program.method? target).any (·.isBridge))
  have htarget := methodAt?_ensureNode h target ((program.method? target).any (·.isBridge))
  obtain ⟨sourceSlot, hsourceSlot, -⟩ := methodAt?_eq_some.1 hsource
  obtain ⟨targetSlot, htargetSlot, -⟩ := methodAt?_eq_some.1 htarget
  refine ⟨hlinked.addCall hsourceSlot htargetSlot, ?_, ?_⟩
  · rw [withCall, ← nodes_ensureNode h]
    exact nodes_addCall hlinked hsource htarget
  · exact (congrFun (methodAt?_addCall _ _ _) caller).trans hsource

private theorem foldl_addTarget_spec (program : Program) {caller : Nat} {source : MethodId} (targets : List MethodId)
    {graph : CallGraph} (h : graph.Linked) (hcaller : graph.methodAt? caller = some source) :
    (targets.foldl (addTarget program caller) graph).Linked ∧
      (targets.foldl (addTarget program caller) graph).nodes
        = targets.foldl (withCall program source) graph.nodes := by
  induction targets generalizing graph with
  | nil => exact ⟨h, rfl⟩
  | cons target targets ih =>
    obtain ⟨hlinked, hnodes, hsource⟩ := addTarget_spec h program hcaller target
    rw [List.foldl_cons, List.foldl_cons, ← hnodes]
    exact ih hlinked hsource

private theorem addMethod_spec (h : graph.Linked) (program : Program) (mapping : MethodMapping) (method : MethodId) :
    (graph.addMethod program mapping method).Linked ∧
      (graph.addMethod program mapping method).nodes = withMethod program mapping graph.nodes method := by
  have hlinked := h.ensureNode method ((program.method? method).any (·.isBridge))
  have hmethod := methodAt?_ensureNode h method ((program.method? method).any (·.isBridge))
  rw [withMethod, ← nodes_ensureNode h]
  exact foldl_addTarget_spec program (program.callTargets mapping method) hlinked hmethod

/-- **Building refines the list of nodes.** The slots stay linked, and the nodes are those of the operations on lists. -/
theorem foldl_addMethod_spec (program : Program) (mapping : MethodMapping) (methods : List MethodId)
    {graph : CallGraph} (h : graph.Linked) :
    (methods.foldl (addMethod program mapping) graph).Linked ∧
      (methods.foldl (addMethod program mapping) graph).nodes
        = methods.foldl (withMethod program mapping) graph.nodes := by
  induction methods generalizing graph with
  | nil => exact ⟨h, rfl⟩
  | cons method methods ih =>
    obtain ⟨hlinked, hnodes⟩ := addMethod_spec h program mapping method
    rw [List.foldl_cons, List.foldl_cons, ← hnodes]
    exact ih hlinked

/-! ### The methods of the nodes -/

theorem mem_methods_withNode {nodes : List CallNode} {method other : MethodId} {isBridge : Bool} :
    other ∈ (withNode nodes method isBridge).map (·.method) ↔ other ∈ nodes.map (·.method) ∨ other = method := by
  unfold withNode
  split
  · next h =>
    refine ⟨.inl, ?_⟩
    rintro (hmem | rfl)
    · exact hmem
    · exact h
  · rw [List.map_append, List.mem_append, List.map_singleton, List.mem_singleton]

theorem map_method_recordCall (caller callee : MethodId) (nodes : List CallNode) :
    (nodes.map (CallNode.recordCall caller callee)).map (·.method) = nodes.map (·.method) := by
  rw [List.map_map]
  rfl

private theorem mem_methods_foldl_withCall (program : Program) (caller : MethodId) (targets : List MethodId)
    (nodes : List CallNode) (other : MethodId) :
    other ∈ (targets.foldl (withCall program caller) nodes).map (·.method) ↔
      other ∈ nodes.map (·.method) ∨ other ∈ targets := by
  induction targets generalizing nodes with
  | nil => simp
  | cons target targets ih =>
    rw [List.foldl_cons, ih, withCall, map_method_recordCall, mem_methods_withNode, List.mem_cons, or_assoc]

private theorem mem_methods_foldl_withMethod (program : Program) (mapping : MethodMapping) (methods : List MethodId)
    (nodes : List CallNode) (other : MethodId) :
    other ∈ (methods.foldl (withMethod program mapping) nodes).map (·.method) ↔
      other ∈ nodes.map (·.method) ∨
        ∃ method ∈ methods, other = method ∨ other ∈ program.callTargets mapping method := by
  induction methods generalizing nodes with
  | nil => simp
  | cons method methods ih =>
    rw [List.foldl_cons, ih, withMethod, mem_methods_foldl_withCall, mem_methods_withNode, List.exists_mem_cons_iff]
    simp only [or_assoc]

/-! ### The built graph -/

/-- A call site runs only methods of the program. -/
theorem siteTargets_subset {program : Program} (h : program.Coherent) (mapping : MethodMapping) (kind : InvokeKind)
    (reference : MethodRef) : program.siteTargets mapping kind reference ⊆ program.programMethods := by
  intro target htarget
  unfold Program.siteTargets at htarget
  split at htarget
  · exact absurd htarget List.not_mem_nil
  · next definition hresolved =>
    have hlisted := h.resolveMethod?_listed hresolved
    split at htarget
    · next hprogram =>
      rcases List.mem_cons.1 htarget with rfl | hother
      · exact hlisted.mem_programMethods hprogram
      · obtain ⟨hmem, hcond⟩ := List.mem_filter.1 hother
        have htargets : ∃ found, program.Listed found ∧ found.id = target := by
          split at hmem
          · unfold Program.dynamicTargets at hmem
            split at hmem
            · exact h.interfaceTargets_listed hlisted hmem
            · exact h.virtualTargets_listed hlisted hmem
          · exact absurd hmem List.not_mem_nil
        obtain ⟨found, hfound, rfl⟩ := htargets
        obtain ⟨definition, hdefinition, hholder⟩ := h.method?_of_listed hfound
        rw [hdefinition, Bool.and_eq_true] at hcond
        have hown : program.isProgramType definition.holder = true := hcond.2
        rw [hholder] at hown
        exact hfound.mem_programMethods hown
    · exact absurd htarget List.not_mem_nil

private theorem callTargets_subset {program : Program} (h : program.Coherent) (mapping : MethodMapping)
    (method : MethodId) :
    program.callTargets mapping method ⊆ program.programMethods := by
  intro target htarget
  unfold Program.callTargets at htarget
  split at htarget
  · exact absurd htarget List.not_mem_nil
  · obtain ⟨⟨kind, reference⟩, -, hsite⟩ := List.mem_flatMap.1 htarget
    exact siteTargets_subset h mapping kind reference hsite

theorem Linked.empty : ({} : CallGraph).Linked := by
  constructor <;> simp [slot?, methodAt?]

/-- The nodes of a built graph, without its slots. -/
theorem nodes_build (program : Program) (mapping : MethodMapping) :
    (build program mapping).nodes = program.programMethods.foldl (withMethod program mapping) [] :=
  (foldl_addMethod_spec program mapping program.programMethods .empty).2

theorem Peelable.build (program : Program) (mapping : MethodMapping) : (build program mapping).Peelable := by
  have hlinked := (foldl_addMethod_spec program mapping program.programMethods .empty).1
  refine ⟨{ hlinked with }, ?_, ?_⟩
  · exact (map_fst_entries_nodup _).sublist (List.filter_sublist.map _)
  · intro position
    rw [List.nil_append]
    simp only [CallGraph.build, List.mem_map, List.mem_filter, CallSlot.isLeaf, List.isEmpty_iff]
    constructor
    · rintro ⟨⟨_, slot⟩, ⟨hmem, hleaf⟩, rfl⟩
      exact ⟨slot, mem_entries.1 hmem, hleaf⟩
    · rintro ⟨slot, hslot, hleaf⟩
      exact ⟨(position, slot), ⟨mem_entries.2 hslot, hleaf⟩, rfl⟩

/-- A declared program's graph has one node for each of its methods. -/
theorem methods_build_perm {program : Program} (h : program.Coherent) (mapping : MethodMapping) :
    (build program mapping).methods.Perm program.programMethods := by
  refine (List.perm_ext_iff_of_nodup (Peelable.build program mapping).balanced.distinct h.programMethods_nodup).2 ?_
  intro method
  rw [nodes_build, mem_methods_foldl_withMethod]
  constructor
  · rintro (hnil | ⟨caller, hcaller, rfl | htarget⟩)
    · exact absurd hnil List.not_mem_nil
    · exact hcaller
    · exact callTargets_subset h mapping caller htarget
  · intro hmethod
    exact .inr ⟨method, hmethod, .inl rfl⟩

end CallGraph

end Bytecode
