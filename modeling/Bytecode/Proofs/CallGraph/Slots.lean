import Bytecode.Proofs.CallGraph.Balance
/-!
# The slots of a call graph

A graph that is in order keeps four records of the same nodes: the slots, the positions that edges name, the index and
the count. `Linked` says how they fit together: an edge leads to a slot that has a node and is recorded there as well, the
index leads from a method to the slot of its node and to no other, and the count is that of the nodes.

From outside such a graph is a list of balanced nodes, and a look at a method finds its node. When some slots are emptied
and every edge to or from them is taken out of the others, the nodes that are seen are the remaining ones.
-/

namespace Bytecode

/-- A node without its edges to and from the emptied slots. -/
def CallSlot.detach (gone : List Nat) (slot : CallSlot) : CallSlot :=
  { slot with
    callees := slot.callees.filter (· ∉ gone)
    callers := slot.callers.filter (· ∉ gone) }

namespace CallGraph

variable {graph rest : CallGraph} {position other : Nat} {slot : CallSlot} {method : MethodId}

/-! ### Reading slots -/

theorem slot?_eq_some : graph.slot? position = some slot ↔ graph.slots[position]? = some (some slot) := by
  rw [slot?]
  cases graph.slots[position]? <;> simp

theorem lt_of_slot? (h : graph.slot? position = some slot) : position < graph.slots.length :=
  (List.getElem?_eq_some_iff.1 (slot?_eq_some.1 h)).1

@[simp] theorem length_slots_modifySlot (f : CallSlot → CallSlot) :
    (graph.modifySlot position f).slots.length = graph.slots.length :=
  List.length_modify ..

theorem slot?_modifySlot (f : CallSlot → CallSlot) :
    (graph.modifySlot position f).slot? other
      = if other = position then (graph.slot? other).map f else graph.slot? other := by
  rw [slot?, modifySlot, List.getElem?_modify, slot?]
  by_cases h : other = position
  · rw [if_pos h]
    cases graph.slots[other]? <;> simp [h]
  · rw [if_neg h]
    cases graph.slots[other]? <;> simp [Ne.symm h]

theorem slot?_set_none :
    ({ graph with slots := graph.slots.set position none } : CallGraph).slot? other
      = if other = position then none else graph.slot? other := by
  rw [slot?, List.getElem?_set, slot?]
  by_cases h : other = position
  · rw [if_pos h, if_pos h.symm]
    split <;> rfl
  · rw [if_neg h, if_neg (Ne.symm h)]

/-- The graph with every node changed, each in its slot. -/
def mapSlots (graph : CallGraph) (f : Nat → CallSlot → CallSlot) : CallGraph :=
  { graph with slots := graph.slots.mapIdx fun position => Option.map (f position) }

@[simp] theorem length_slots_mapSlots (f : Nat → CallSlot → CallSlot) :
    (graph.mapSlots f).slots.length = graph.slots.length :=
  List.length_mapIdx

@[simp] theorem slot?_mapSlots (f : Nat → CallSlot → CallSlot) (position : Nat) :
    (graph.mapSlots f).slot? position = (graph.slot? position).map (f position) := by
  rw [slot?, mapSlots, List.getElem?_mapIdx, slot?]
  cases graph.slots[position]? <;> rfl

/-- Two graphs have the same slots if every look at a slot finds the same. -/
theorem slots_ext {left right : CallGraph} (hlength : left.slots.length = right.slots.length)
    (h : ∀ position, left.slot? position = right.slot? position) : left.slots = right.slots := by
  apply List.ext_getElem hlength
  intro position hleft hright
  have hslot := h position
  simpa only [slot?, List.getElem?_eq_getElem hleft, List.getElem?_eq_getElem hright, Option.join_some] using hslot

theorem mapSlots_congr {f g : Nat → CallSlot → CallSlot}
    (h : ∀ position slot, graph.slot? position = some slot → f position slot = g position slot) :
    graph.mapSlots f = graph.mapSlots g := by
  have hslots : (graph.mapSlots f).slots = (graph.mapSlots g).slots := by
    apply slots_ext (by simp)
    intro position
    rw [slot?_mapSlots, slot?_mapSlots]
    exact Option.map_congr fun slot hslot => h position slot hslot
  exact congrArg (fun slots => { graph with slots }) hslots

theorem mapSlots_id (graph : CallGraph) : graph.mapSlots (fun _ slot => slot) = graph := by
  have hslots : (graph.mapSlots fun _ slot => slot).slots = graph.slots := by
    apply slots_ext (by simp)
    intro position
    rw [slot?_mapSlots, Option.map_id']
  exact congrArg (fun slots => { graph with slots }) hslots

theorem mapSlots_mapSlots (f g : Nat → CallSlot → CallSlot) :
    (graph.mapSlots f).mapSlots g = graph.mapSlots fun position slot => g position (f position slot) := by
  have hslots : ((graph.mapSlots f).mapSlots g).slots
      = (graph.mapSlots fun position slot => g position (f position slot)).slots := by
    apply slots_ext (by simp)
    intro position
    rw [slot?_mapSlots, slot?_mapSlots, slot?_mapSlots, Option.map_map]
    rfl
  exact congrArg (fun slots => { graph with slots }) hslots

theorem modifySlot_eq_mapSlots (f : CallSlot → CallSlot) :
    graph.modifySlot position f = graph.mapSlots fun other slot => if other = position then f slot else slot := by
  have hslots : (graph.modifySlot position f).slots
      = (graph.mapSlots fun other slot => if other = position then f slot else slot).slots := by
    apply slots_ext (by simp)
    intro other
    rw [slot?_modifySlot, slot?_mapSlots]
    split <;> simp
  exact congrArg (fun slots => { graph with slots }) hslots

theorem mem_entriesAt {positions : List Nat} :
    (position, slot) ∈ graph.entriesAt positions ↔ position ∈ positions ∧ graph.slot? position = some slot := by
  simp only [entriesAt, List.mem_filterMap, Option.map_eq_some_iff, Prod.mk.injEq]
  constructor
  · rintro ⟨_, hmem, _, hslot, rfl, rfl⟩
    exact ⟨hmem, hslot⟩
  · rintro ⟨hmem, hslot⟩
    exact ⟨position, hmem, slot, hslot, rfl, rfl⟩

theorem mem_entries : (position, slot) ∈ graph.entries ↔ graph.slot? position = some slot := by
  rw [entries, mem_entriesAt, positions, List.mem_range]
  exact ⟨And.right, fun hslot => ⟨lt_of_slot? hslot, hslot⟩⟩

theorem map_fst_entriesAt (positions : List Nat) :
    (graph.entriesAt positions).map (·.1) = positions.filter fun position => (graph.slot? position).isSome := by
  rw [entriesAt, List.map_filterMap, ← List.filterMap_eq_filter]
  apply List.filterMap_congr
  intro position _
  cases hslot : graph.slot? position <;> simp [Option.guard, hslot]

theorem map_fst_entries_nodup (graph : CallGraph) : (graph.entries.map (·.1)).Nodup := by
  rw [entries, map_fst_entriesAt]
  exact List.nodup_range.filter _

/-- The nodes are as many as the slots that are not empty. -/
theorem length_entries (graph : CallGraph) : graph.entries.length = graph.slots.countP Option.isSome := by
  have hslots : graph.positions.map graph.slot? = graph.slots := by
    apply List.ext_getElem (by simp [positions])
    intro position _ hposition
    simp [positions, slot?, hposition]
  calc graph.entries.length
      = (graph.entries.map (·.1)).length := List.length_map _ |>.symm
    _ = graph.positions.countP fun position => (graph.slot? position).isSome := by
        rw [entries, map_fst_entriesAt, List.countP_eq_length_filter]
    _ = (graph.positions.map graph.slot?).countP Option.isSome := by
        rw [List.countP_map]
        rfl
    _ = graph.slots.countP Option.isSome := by rw [hslots]

/-- The count goes by which slots are empty. -/
theorem countP_slots_congr (left right : CallGraph) (hlength : left.slots.length = right.slots.length)
    (h : ∀ position, (left.slot? position).isSome = (right.slot? position).isSome) :
    left.slots.countP Option.isSome = right.slots.countP Option.isSome := by
  have hpositions : left.entries.map (·.1) = right.entries.map (·.1) := by
    rw [entries, entries, map_fst_entriesAt, map_fst_entriesAt, positions, positions, hlength]
    exact List.filter_congr fun position _ => h position
  have hentries := congrArg List.length hpositions
  rwa [List.length_map, List.length_map, length_entries, length_entries] at hentries

theorem methodAt?_eq_some :
    graph.methodAt? position = some method ↔ ∃ slot, graph.slot? position = some slot ∧ slot.method = method := by
  rw [methodAt?, Option.map_eq_some_iff]

theorem methodAt?_of_slot? (h : graph.slot? position = some slot) : graph.methodAt? position = some slot.method := by
  rw [methodAt?, h, Option.map_some]

theorem mem_methodsAt {positions : List Nat} :
    method ∈ graph.methodsAt positions ↔ ∃ position ∈ positions, graph.methodAt? position = some method :=
  List.mem_filterMap

/-! ### Reading methods -/

theorem nodes_eq_filterMap (graph : CallGraph) :
    graph.nodes = graph.positions.filterMap fun position => (graph.slot? position).map graph.node := by
  rw [nodes, entries, entriesAt, List.map_filterMap]
  apply List.filterMap_congr
  intro position _
  cases graph.slot? position <;> rfl

theorem mem_nodes {node : CallNode} :
    node ∈ graph.nodes ↔ ∃ position slot, graph.slot? position = some slot ∧ graph.node slot = node := by
  rw [nodes, List.mem_map]
  constructor
  · rintro ⟨⟨position, slot⟩, hmem, rfl⟩
    exact ⟨position, slot, mem_entries.1 hmem, rfl⟩
  · rintro ⟨position, slot, hslot, rfl⟩
    exact ⟨(position, slot), mem_entries.2 hslot, rfl⟩

theorem mem_methods : method ∈ graph.methods ↔ ∃ node ∈ graph.nodes, node.method = method := by
  rw [methods, List.mem_map]

theorem mem_methods_iff_methodAt? : method ∈ graph.methods ↔ ∃ position, graph.methodAt? position = some method := by
  simp only [mem_methods, mem_nodes, methodAt?_eq_some]
  constructor
  · rintro ⟨_, ⟨position, slot, hslot, rfl⟩, rfl⟩
    exact ⟨position, slot, hslot, rfl⟩
  · rintro ⟨position, slot, hslot, rfl⟩
    exact ⟨_, ⟨position, slot, hslot, rfl⟩, rfl⟩

/-! ### Linked slots -/

/-- Edges, index and count fit the nodes in the slots. -/
structure Linked (graph : CallGraph) : Prop where
  callees_nodup : ∀ position slot, graph.slot? position = some slot → slot.callees.Nodup
  callers_nodup : ∀ position slot, graph.slot? position = some slot → slot.callers.Nodup
  callee_listed : ∀ position slot, graph.slot? position = some slot → ∀ callee ∈ slot.callees,
    ∃ target, graph.slot? callee = some target ∧ position ∈ target.callers
  caller_listed : ∀ position slot, graph.slot? position = some slot → ∀ caller ∈ slot.callers,
    ∃ source, graph.slot? caller = some source ∧ position ∈ source.callees
  no_self_call : ∀ position slot, graph.slot? position = some slot → position ∉ slot.callees
  indexed : ∀ method position, graph.index.find? method = some position ↔ graph.methodAt? position = some method
  counted : graph.live = graph.slots.countP Option.isSome

namespace Linked

/-- A method has one node. -/
theorem position_unique (h : graph.Linked) (hposition : graph.methodAt? position = some method)
    (hother : graph.methodAt? other = some method) : position = other := by
  have hindex := (h.indexed method position).2 hposition
  rw [(h.indexed method other).2 hother] at hindex
  exact (Option.some.inj hindex).symm

/-- Seen from the callee, an edge is the same edge. -/
theorem mem_callers_iff (h : graph.Linked) {caller callee : Nat} {source target : CallSlot}
    (hcaller : graph.slot? caller = some source) (hcallee : graph.slot? callee = some target) :
    caller ∈ target.callers ↔ callee ∈ source.callees := by
  constructor
  · intro hmem
    obtain ⟨found, hfound, hlisted⟩ := h.caller_listed callee target hcallee caller hmem
    rwa [Option.some.inj (hcaller.symm.trans hfound)]
  · intro hmem
    obtain ⟨found, hfound, hlisted⟩ := h.callee_listed caller source hcaller callee hmem
    rwa [Option.some.inj (hcallee.symm.trans hfound)]

/-- An edge leads to a slot with a node. -/
theorem exists_methodAt? (h : graph.Linked) (hslot : graph.slot? position = some slot)
    (hother : other ∈ slot.callees ∨ other ∈ slot.callers) : ∃ method, graph.methodAt? other = some method := by
  rcases hother with hcallee | hcaller
  · obtain ⟨target, htarget, -⟩ := h.callee_listed position slot hslot other hcallee
    exact ⟨_, methodAt?_of_slot? htarget⟩
  · obtain ⟨source, hsource, -⟩ := h.caller_listed position slot hslot other hcaller
    exact ⟨_, methodAt?_of_slot? hsource⟩

theorem mem_methodsAt_iff (h : graph.Linked) (hposition : graph.methodAt? position = some method)
    {positions : List Nat} : method ∈ graph.methodsAt positions ↔ position ∈ positions := by
  rw [mem_methodsAt]
  constructor
  · rintro ⟨found, hmem, hfound⟩
    rwa [h.position_unique hposition hfound]
  · intro hmem
    exact ⟨position, hmem, hposition⟩

theorem methodsAt_nodup (h : graph.Linked) {positions : List Nat} (hnodup : positions.Nodup) :
    (graph.methodsAt positions).Nodup :=
  hnodup.filterMap fun _ _ _ hleft hright => h.position_unique hleft hright

end Linked

theorem length_methodsAt {positions : List Nat}
    (h : ∀ position ∈ positions, ∃ method, graph.methodAt? position = some method) :
    (graph.methodsAt positions).length = positions.length := by
  rw [methodsAt, List.length_filterMap_eq_countP, List.countP_eq_length]
  intro position hmem
  obtain ⟨method, hmethod⟩ := h position hmem
  rw [hmethod, Option.isSome_some]

theorem Linked.degree_node (h : graph.Linked) (hslot : graph.slot? position = some slot) :
    (graph.node slot).degree = slot.degree :=
  length_methodsAt fun _ hcallee => h.exists_methodAt? hslot (.inl hcallee)

/-! ### Methods of a linked graph -/

namespace Linked

theorem methods_nodup (h : graph.Linked) : graph.methods.Nodup := by
  have hmethods : graph.methods = graph.methodsAt graph.positions := by
    rw [methods, nodes_eq_filterMap, List.map_filterMap]
    apply List.filterMap_congr
    intro position _
    rw [methodAt?, Option.map_map]
    rfl
  rw [hmethods]
  exact h.methodsAt_nodup List.nodup_range

/-- **A linked graph is balanced.** Edges between slots are edges between the methods in them. -/
theorem balanced (h : graph.Linked) : Balanced graph.nodes where
  distinct := h.methods_nodup
  callees_nodup := by
    intro node hnode
    obtain ⟨position, slot, hslot, rfl⟩ := mem_nodes.1 hnode
    exact h.methodsAt_nodup (h.callees_nodup position slot hslot)
  callers_nodup := by
    intro node hnode
    obtain ⟨position, slot, hslot, rfl⟩ := mem_nodes.1 hnode
    exact h.methodsAt_nodup (h.callers_nodup position slot hslot)
  callee_listed := by
    intro node hnode method hmethod
    obtain ⟨position, slot, hslot, rfl⟩ := mem_nodes.1 hnode
    obtain ⟨callee, hcallee, hfound⟩ := mem_methodsAt.1 hmethod
    obtain ⟨target, htarget, hcaller⟩ := h.callee_listed position slot hslot callee hcallee
    obtain rfl : target.method = method := Option.some.inj ((methodAt?_of_slot? htarget).symm.trans hfound)
    exact ⟨_, mem_nodes.2 ⟨callee, target, htarget, rfl⟩, rfl, mem_methodsAt.2 ⟨position, hcaller,
      methodAt?_of_slot? hslot⟩⟩
  caller_listed := by
    intro node hnode method hmethod
    obtain ⟨position, slot, hslot, rfl⟩ := mem_nodes.1 hnode
    obtain ⟨caller, hcaller, hfound⟩ := mem_methodsAt.1 hmethod
    obtain ⟨source, hsource, hcallee⟩ := h.caller_listed position slot hslot caller hcaller
    obtain rfl : source.method = method := Option.some.inj ((methodAt?_of_slot? hsource).symm.trans hfound)
    exact ⟨_, mem_nodes.2 ⟨caller, source, hsource, rfl⟩, rfl, mem_methodsAt.2 ⟨position, hcallee,
      methodAt?_of_slot? hslot⟩⟩
  no_self_call := by
    intro node hnode
    obtain ⟨position, slot, hslot, rfl⟩ := mem_nodes.1 hnode
    change slot.method ∉ graph.methodsAt slot.callees
    rw [h.mem_methodsAt_iff (methodAt?_of_slot? hslot)]
    exact h.no_self_call position slot hslot

theorem node?_eq_some_iff (h : graph.Linked) {node : CallNode} :
    graph.node? method = some node ↔ node ∈ graph.nodes ∧ node.method = method := by
  simp only [node?, Option.map_eq_some_iff, Option.bind_eq_some_iff, mem_nodes, h.indexed, methodAt?_eq_some]
  constructor
  · rintro ⟨slot, ⟨position, ⟨found, hfound, rfl⟩, hslot⟩, rfl⟩
    obtain rfl : found = slot := Option.some.inj (hfound.symm.trans hslot)
    exact ⟨⟨position, found, hfound, rfl⟩, rfl⟩
  · rintro ⟨⟨position, slot, hslot, rfl⟩, rfl⟩
    exact ⟨slot, ⟨position, ⟨slot, hslot, rfl⟩, hslot⟩, rfl⟩

theorem node?_eq_some (h : graph.Linked) {node : CallNode} (hnode : node ∈ graph.nodes) :
    graph.node? node.method = some node :=
  h.node?_eq_some_iff.2 ⟨hnode, rfl⟩

theorem contains_iff (h : graph.Linked) : graph.contains method = true ↔ method ∈ graph.methods := by
  simp only [contains, Option.isSome_iff_exists, h.node?_eq_some_iff, mem_methods]

theorem callees_eq (h : graph.Linked) {node : CallNode} (hnode : node ∈ graph.nodes) :
    graph.callees node.method = node.callees := by
  rw [callees, h.node?_eq_some hnode]
  rfl

theorem callers_eq (h : graph.Linked) {node : CallNode} (hnode : node ∈ graph.nodes) :
    graph.callers node.method = node.callers := by
  rw [callers, h.node?_eq_some hnode]
  rfl

theorem mem_methods_of_mem_callees (h : graph.Linked) {caller callee : MethodId}
    (hcallee : callee ∈ graph.callees caller) : caller ∈ graph.methods := by
  unfold callees at hcallee
  cases hfound : graph.node? caller with
  | none => simp [hfound] at hcallee
  | some node => exact mem_methods.2 ⟨node, h.node?_eq_some_iff.1 hfound⟩

theorem mem_methods_of_mem_callers (h : graph.Linked) {caller callee : MethodId}
    (hcaller : caller ∈ graph.callers callee) : callee ∈ graph.methods := by
  unfold callers at hcaller
  cases hfound : graph.node? callee with
  | none => simp [hfound] at hcaller
  | some node => exact mem_methods.2 ⟨node, h.node?_eq_some_iff.1 hfound⟩

theorem mem_callees_iff (h : graph.Linked) {caller callee : MethodId} :
    callee ∈ graph.callees caller ↔ caller ∈ graph.callers callee := by
  constructor
  · intro hmem
    obtain ⟨node, hnode, rfl⟩ := mem_methods.1 (h.mem_methods_of_mem_callees hmem)
    rw [h.callees_eq hnode] at hmem
    obtain ⟨target, htarget, rfl, hcaller⟩ := h.balanced.callee_listed node hnode callee hmem
    rwa [h.callers_eq htarget]
  · intro hmem
    obtain ⟨node, hnode, rfl⟩ := mem_methods.1 (h.mem_methods_of_mem_callers hmem)
    rw [h.callers_eq hnode] at hmem
    obtain ⟨source, hsource, rfl, hcallee⟩ := h.balanced.caller_listed node hnode caller hmem
    rwa [h.callees_eq hsource]

theorem mem_methods_of_callee (h : graph.Linked) {caller callee : MethodId} (hmem : callee ∈ graph.callees caller) :
    callee ∈ graph.methods :=
  h.mem_methods_of_mem_callers (h.mem_callees_iff.1 hmem)

theorem not_mem_callees_self (h : graph.Linked) (method : MethodId) : method ∉ graph.callees method := by
  intro hmem
  obtain ⟨node, hnode, rfl⟩ := mem_methods.1 (h.mem_methods_of_mem_callees hmem)
  rw [h.callees_eq hnode] at hmem
  exact h.balanced.no_self_call node hnode hmem

/-- What a look finds once some methods are gone. -/
theorem node?_remaining (h : graph.Linked) (hrest : rest.Linked) {gone : List MethodId}
    (hnodes : rest.nodes = remaining graph.nodes gone) (hmethod : method ∉ gone) :
    rest.node? method = (graph.node? method).map (CallNode.detach gone) := by
  apply Option.ext
  intro node
  rw [hrest.node?_eq_some_iff, hnodes, mem_remaining, Option.map_eq_some_iff]
  simp only [h.node?_eq_some_iff]
  constructor
  · rintro ⟨⟨before, hbefore, -, rfl⟩, hname⟩
    exact ⟨before, ⟨hbefore, hname⟩, rfl⟩
  · rintro ⟨before, ⟨hbefore, rfl⟩, rfl⟩
    exact ⟨⟨before, hbefore, hmethod, rfl⟩, rfl⟩

theorem callees_remaining (h : graph.Linked) (hrest : rest.Linked) {gone : List MethodId}
    (hnodes : rest.nodes = remaining graph.nodes gone) (hmethod : method ∉ gone) :
    rest.callees method = (graph.callees method).filter (· ∉ gone) := by
  rw [callees, h.node?_remaining hrest hnodes hmethod, callees]
  cases graph.node? method <;> rfl

theorem callers_remaining (h : graph.Linked) (hrest : rest.Linked) {gone : List MethodId}
    (hnodes : rest.nodes = remaining graph.nodes gone) (hmethod : method ∉ gone) :
    rest.callers method = (graph.callers method).filter (· ∉ gone) := by
  rw [callers, h.node?_remaining hrest hnodes hmethod, callers]
  cases graph.node? method <;> rfl

theorem size_eq (h : graph.Linked) : graph.size = graph.nodes.length := by
  rw [size, h.counted, nodes, List.length_map, length_entries]

theorem isEmpty_iff (h : graph.Linked) : graph.isEmpty = true ↔ graph.nodes = [] := by
  rw [isEmpty, decide_eq_true_iff, ← List.length_eq_zero_iff, ← h.size_eq, size]

/-- A change of the slots that leaves every method in its place needs to be looked at for its edges only. -/
theorem mapSlots (h : graph.Linked) {f : Nat → CallSlot → CallSlot}
    (hmethod : ∀ position slot, (f position slot).method = slot.method)
    (hcallees : ∀ position slot, graph.slot? position = some slot →
      (f position slot).callees.Nodup ∧ position ∉ (f position slot).callees ∧
        ∀ callee ∈ (f position slot).callees,
          ∃ target, graph.slot? callee = some target ∧ position ∈ (f callee target).callers)
    (hcallers : ∀ position slot, graph.slot? position = some slot →
      (f position slot).callers.Nodup ∧ ∀ caller ∈ (f position slot).callers,
        ∃ source, graph.slot? caller = some source ∧ position ∈ (f caller source).callees) :
    (graph.mapSlots f).Linked := by
  have hafter {position : Nat} {slot : CallSlot} (hslot : graph.slot? position = some slot) :
      (graph.mapSlots f).slot? position = some (f position slot) := by
    rw [slot?_mapSlots, hslot, Option.map_some]
  constructor
  case callees_nodup =>
    intro position slot hslot
    obtain ⟨before, hold, rfl⟩ := Option.map_eq_some_iff.1 ((slot?_mapSlots f position).symm.trans hslot)
    exact (hcallees position before hold).1
  case callers_nodup =>
    intro position slot hslot
    obtain ⟨before, hold, rfl⟩ := Option.map_eq_some_iff.1 ((slot?_mapSlots f position).symm.trans hslot)
    exact (hcallers position before hold).1
  case callee_listed =>
    intro position slot hslot callee hcallee
    obtain ⟨before, hold, rfl⟩ := Option.map_eq_some_iff.1 ((slot?_mapSlots f position).symm.trans hslot)
    obtain ⟨target, htarget, hlisted⟩ := (hcallees position before hold).2.2 callee hcallee
    exact ⟨_, hafter htarget, hlisted⟩
  case caller_listed =>
    intro position slot hslot caller hcaller
    obtain ⟨before, hold, rfl⟩ := Option.map_eq_some_iff.1 ((slot?_mapSlots f position).symm.trans hslot)
    obtain ⟨source, hsource, hlisted⟩ := (hcallers position before hold).2 caller hcaller
    exact ⟨_, hafter hsource, hlisted⟩
  case no_self_call =>
    intro position slot hslot
    obtain ⟨before, hold, rfl⟩ := Option.map_eq_some_iff.1 ((slot?_mapSlots f position).symm.trans hslot)
    exact (hcallees position before hold).2.1
  case indexed =>
    intro method position
    rw [methodAt?, slot?_mapSlots, Option.map_map]
    simp only [Function.comp_def, hmethod]
    exact h.indexed method position
  case counted =>
    refine h.counted.trans (countP_slots_congr _ _ (length_slots_mapSlots _).symm ?_)
    intro position
    rw [slot?_mapSlots, Option.isSome_map]

end Linked

/-! ### Emptied slots -/

/-- What is left of a graph when some slots are emptied, with every edge to and from them. -/
structure Detached (graph : CallGraph) (gone : List Nat) (rest : CallGraph) : Prop where
  length_slots : rest.slots.length = graph.slots.length
  slot?_eq : ∀ position, rest.slot? position
    = if position ∈ gone then none else (graph.slot? position).map (CallSlot.detach gone)

namespace Detached

variable {gone : List Nat}

theorem methodAt?_eq (h : Detached graph gone rest) (position : Nat) :
    rest.methodAt? position = if position ∈ gone then none else graph.methodAt? position := by
  rw [methodAt?, h.slot?_eq, methodAt?]
  split
  · rfl
  · rw [Option.map_map]
    rfl

theorem nil (graph : CallGraph) : Detached graph [] graph where
  length_slots := rfl
  slot?_eq := by
    intro position
    have hdetach : CallSlot.detach [] = id := funext fun slot => by simp [CallSlot.detach]
    rw [if_neg List.not_mem_nil, hdetach, Option.map_id_apply]

/-- What is emptied after what was emptied before is emptied at once. -/
theorem trans {next : CallGraph} {more : List Nat} (hnext : Detached graph gone next)
    (hrest : Detached next more rest) : Detached graph (gone ++ more) rest where
  length_slots := hrest.length_slots.trans hnext.length_slots
  slot?_eq := by
    intro position
    have hdetach : ∀ slot : CallSlot, (slot.detach gone).detach more = slot.detach (gone ++ more) := by
      intro slot
      simp only [CallSlot.detach, List.filter_filter, CallSlot.mk.injEq, true_and]
      constructor <;>
      · apply List.filter_congr
        intro other _
        by_cases hgone : other ∈ gone <;> by_cases hmore : other ∈ more <;> simp [hgone, hmore]
    rw [hrest.slot?_eq, hnext.slot?_eq]
    by_cases hgone : position ∈ gone
    · simp [hgone]
    · by_cases hmore : position ∈ more
      · simp [hmore]
      · simp only [hgone, hmore, if_false, List.mem_append, or_self, Option.map_map]
        exact Option.map_congr fun slot _ => hdetach slot

private theorem methodsAt_filter (h : Detached graph gone rest) (hgraph : graph.Linked) (positions : List Nat) :
    rest.methodsAt (positions.filter (· ∉ gone)) = (graph.methodsAt positions).filter (· ∉ graph.methodsAt gone) := by
  rw [methodsAt, List.filterMap_filter, methodsAt.eq_def graph positions, List.filter_filterMap]
  apply List.filterMap_congr
  intro position _
  cases hmethod : graph.methodAt? position with
  | none => simp [h.methodAt?_eq, hmethod]
  | some method =>
    have hmem : method ∈ graph.methodsAt gone ↔ position ∈ gone := hgraph.mem_methodsAt_iff hmethod
    rw [Option.filter_some]
    by_cases hgone : position ∈ gone
    · simp [hgone, hmem.2 hgone]
    · have hstays : method ∉ graph.methodsAt gone := fun hmem' => hgone (hmem.1 hmem')
      simp [h.methodAt?_eq, hmethod, hgone, hstays]

/-- Slots that are emptied leave a linked graph, if the index and the count follow. -/
theorem linked (h : Detached graph gone rest) (hgraph : graph.Linked)
    (hindex : ∀ method, rest.index.find? method
      = if method ∈ graph.methodsAt gone then none else graph.index.find? method)
    (hcounted : rest.live = rest.slots.countP Option.isSome) : rest.Linked := by
  have hbefore {position : Nat} {slot : CallSlot} (hslot : rest.slot? position = some slot) :
      position ∉ gone ∧ ∃ before, graph.slot? position = some before ∧ before.detach gone = slot := by
    rw [h.slot?_eq] at hslot
    split at hslot
    · cases hslot
    · next hstays => exact ⟨hstays, Option.map_eq_some_iff.1 hslot⟩
  have hafter {position : Nat} {slot : CallSlot} (hstays : position ∉ gone) (hslot : graph.slot? position = some slot) :
      rest.slot? position = some (slot.detach gone) := by
    rw [h.slot?_eq, if_neg hstays, hslot, Option.map_some]
  constructor
  case callees_nodup =>
    intro position slot hslot
    obtain ⟨-, before, hold, rfl⟩ := hbefore hslot
    exact (hgraph.callees_nodup position before hold).filter _
  case callers_nodup =>
    intro position slot hslot
    obtain ⟨-, before, hold, rfl⟩ := hbefore hslot
    exact (hgraph.callers_nodup position before hold).filter _
  case callee_listed =>
    intro position slot hslot callee hcallee
    obtain ⟨hstays, before, hold, rfl⟩ := hbefore hslot
    obtain ⟨hmem, hkept⟩ := List.mem_filter.1 hcallee
    obtain ⟨target, htarget, hcaller⟩ := hgraph.callee_listed position before hold callee hmem
    exact ⟨_, hafter (of_decide_eq_true hkept) htarget, List.mem_filter.2 ⟨hcaller, decide_eq_true hstays⟩⟩
  case caller_listed =>
    intro position slot hslot caller hcaller
    obtain ⟨hstays, before, hold, rfl⟩ := hbefore hslot
    obtain ⟨hmem, hkept⟩ := List.mem_filter.1 hcaller
    obtain ⟨source, hsource, hcallee⟩ := hgraph.caller_listed position before hold caller hmem
    exact ⟨_, hafter (of_decide_eq_true hkept) hsource, List.mem_filter.2 ⟨hcallee, decide_eq_true hstays⟩⟩
  case no_self_call =>
    intro position slot hslot hself
    obtain ⟨-, before, hold, rfl⟩ := hbefore hslot
    exact hgraph.no_self_call position before hold (List.mem_of_mem_filter hself)
  case indexed =>
    intro method position
    rw [hindex, h.methodAt?_eq]
    by_cases hmethod : graph.methodAt? position = some method
    · have hmem : method ∈ graph.methodsAt gone ↔ position ∈ gone := hgraph.mem_methodsAt_iff hmethod
      simp [hmem, hmethod, (hgraph.indexed method position).2 hmethod]
    · have hnot : graph.index.find? method ≠ some position := mt (hgraph.indexed method position).1 hmethod
      by_cases hgone : position ∈ gone <;> by_cases hmem : method ∈ graph.methodsAt gone <;> simp [*]
  case counted => exact hcounted

/-- **Emptied slots.** What is seen of the rest are the remaining nodes. -/
theorem nodes_eq (h : Detached graph gone rest) (hgraph : graph.Linked) :
    rest.nodes = remaining graph.nodes (graph.methodsAt gone) := by
  rw [nodes_eq_filterMap, nodes_eq_filterMap, remaining, List.filter_filterMap, List.map_filterMap, positions,
    h.length_slots]
  apply List.filterMap_congr
  intro position _
  rw [h.slot?_eq]
  cases hslot : graph.slot? position with
  | none => simp
  | some slot =>
    have hmem : slot.method ∈ graph.methodsAt gone ↔ position ∈ gone :=
      hgraph.mem_methodsAt_iff (methodAt?_of_slot? hslot)
    rw [Option.map_some, Option.map_some, Option.filter_some]
    by_cases hgone : position ∈ gone
    · simp [hgone, show (graph.node slot).method ∈ graph.methodsAt gone from hmem.2 hgone]
    · have hstays : (graph.node slot).method ∉ graph.methodsAt gone := fun hmem' => hgone (hmem.1 hmem')
      have hnode : rest.node (slot.detach gone) = (graph.node slot).detach (graph.methodsAt gone) := by
        simp only [node, CallSlot.detach, CallNode.detach, h.methodsAt_filter hgraph]
      simp [hgone, hnode, hstays]

end Detached

end CallGraph

end Bytecode
