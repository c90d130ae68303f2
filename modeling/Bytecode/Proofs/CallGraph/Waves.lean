import Bytecode.Proofs.CallGraph.Construction
/-!
# Progress of the waves

A graph that was built stays between two waves however often a wave is picked from it, as long as nobody processes a
method before it is handed out. What is left is always the built graph without the methods handed out so far, so no
method is lost or handed out twice, and every pick from a graph with nodes hands out at least one.
-/

namespace Bytecode.CallGraph

/-! ### Symmetry -/

private theorem Linked.edgeDefect?_eq_none {graph : CallGraph} (h : graph.Linked) {position : Nat} {slot : CallSlot}
    (hslot : graph.slot? position = some slot) : graph.edgeDefect? position slot = none := by
  have hself : (slot.callees.contains position || slot.callers.contains position) = false := by
    rw [Bool.or_eq_false_iff]
    simp only [List.contains_eq_mem, decide_eq_false_iff_not, h.mem_callers_iff hslot hslot, and_self]
    exact h.no_self_call position slot hslot
  rw [edgeDefect?, hself]
  simp only [Bool.false_eq_true, if_false, Option.or_eq_none_iff, List.findSome?_eq_none_iff]
  constructor
  · intro callee hcallee
    obtain ⟨target, htarget, hcaller⟩ := h.callee_listed position slot hslot callee hcallee
    rw [htarget]
    exact if_pos (List.contains_iff_mem.2 hcaller)
  · intro caller hcaller
    obtain ⟨source, hsource, hcallee⟩ := h.caller_listed position slot hslot caller hcaller
    rw [hsource]
    exact if_pos (List.contains_iff_mem.2 hcallee)

private theorem Linked.checkSymmetry_eq_ok {graph : CallGraph} (h : graph.Linked) : graph.checkSymmetry = .ok () := by
  rw [checkSymmetry]
  split
  · rfl
  · next error hfound =>
    obtain ⟨⟨position, slot⟩, hmem, hdefect⟩ := List.exists_of_findSome?_eq_some hfound
    cases (h.edgeDefect?_eq_none (mem_entries.1 hmem)).symm.trans hdefect

theorem Peelable.mem_frontier_iff {graph : CallGraph} (h : graph.Peelable) {method : MethodId} :
    method ∈ graph.frontier ↔ method ∈ graph.methods ∧ graph.callees method = [] := by
  rw [h.mem_frontier]
  constructor
  · rintro ⟨node, hnode, rfl, hcallees⟩
    exact ⟨mem_methods.2 ⟨node, hnode, rfl⟩, by rw [h.linked.callees_eq hnode, hcallees]⟩
  · rintro ⟨hmethod, hcallees⟩
    obtain ⟨node, hnode, rfl⟩ := mem_methods.1 hmethod
    rw [h.linked.callees_eq hnode] at hcallees
    exact ⟨node, hnode, rfl, hcallees⟩

/-! ### Any number of picks -/

/-- The methods that one pick hands out. -/
def handedOut : Except Error (Option Wave) → List MethodId
  | .ok (some wave) => wave.methods
  | .ok none | .error _ => []

/-- The call graph of a program after a number of picks, with the methods that these handed out. Before each pick no
method of the program was processed but those handed out already. -/
inductive PickedFrom (program : Program) (mapping : MethodMapping) : Nat → List MethodId → CallGraph → Prop
  | start : PickedFrom program mapping 0 [] (build program mapping)
  | pick {count : Nat} {handed : List MethodId} {graph : CallGraph} {isProcessed : MethodId → Bool} :
      PickedFrom program mapping count handed graph →
      (∀ method ∈ program.programMethods, isProcessed method = true → method ∈ handed) →
      PickedFrom program mapping (count + 1) (handed ++ handedOut (graph.pick isProcessed).2) (graph.pick isProcessed).1

/-- What is left of a graph after some of its methods were handed out. -/
structure LeftOver (start : CallGraph) (handed : List MethodId) (graph : CallGraph) : Prop where
  peelable : graph.Peelable
  nodes_eq : graph.nodes = remaining start.nodes handed
  handed_nodup : handed.Nodup
  handed_subset : handed ⊆ start.methods

namespace LeftOver

variable {start graph : CallGraph} {handed : List MethodId}

private theorem methods_eq (h : LeftOver start handed graph) : graph.methods = start.methods.filter (· ∉ handed) := by
  rw [methods, h.nodes_eq, methods_remaining]
  rfl

theorem mem_methods_iff (h : LeftOver start handed graph) {method : MethodId} :
    method ∈ graph.methods ↔ method ∈ start.methods ∧ method ∉ handed := by
  rw [h.methods_eq, List.mem_filter, decide_eq_true_iff]

theorem perm (h : LeftOver start handed graph) (hstart : start.methods.Nodup) :
    (handed ++ graph.methods).Perm start.methods := by
  rw [h.methods_eq]
  exact append_filter_not_mem_perm hstart h.handed_nodup h.handed_subset

/-- One pick from a graph with nodes goes from what is left to what is left then. -/
theorem pick (h : LeftOver start handed graph) (hnodes : graph.nodes ≠ []) {isProcessed : MethodId → Bool}
    (hfresh : ∀ method ∈ graph.methods, isProcessed method = false) :
    ∃ rest, graph.pick isProcessed = (rest, .ok (some graph.nextWave)) ∧
      LeftOver start (handed ++ graph.nextWave.methods) rest := by
  obtain ⟨rest, hpick, hrest, hpeelable⟩ := pick_eq h.peelable hnodes hfresh
  have hsubset := nextWave_methods_subset h.peelable
  have hdisjoint : ∀ method ∈ graph.nextWave.methods, method ∈ start.methods ∧ method ∉ handed := by
    intro method hmethod
    exact h.mem_methods_iff.1 (hsubset hmethod)
  refine ⟨rest, hpick, hpeelable, ?_, ?_, ?_⟩
  · rw [hrest, h.nodes_eq, remaining_remaining]
  · rw [List.nodup_append]
    refine ⟨h.handed_nodup, nextWave_methods_nodup h.peelable, ?_⟩
    rintro left hleft right hright rfl
    exact (hdisjoint left hright).2 hleft
  · rw [List.append_subset]
    exact ⟨h.handed_subset, fun method hmethod => (hdisjoint method hmethod).1⟩

end LeftOver

private theorem isProcessed_eq_false {program : Program} (hprogram : program.Coherent) {mapping : MethodMapping}
    {handed : List MethodId} {graph : CallGraph} (h : LeftOver (build program mapping) handed graph)
    {isProcessed : MethodId → Bool}
    (hfresh : ∀ method ∈ program.programMethods, isProcessed method = true → method ∈ handed) :
    ∀ method ∈ graph.methods, isProcessed method = false := by
  intro method hmethod
  obtain ⟨hmem, hnew⟩ := h.mem_methods_iff.1 hmethod
  rw [Bool.eq_false_iff]
  exact fun hprocessed => hnew (hfresh method ((methods_build_perm hprogram mapping).mem_iff.1 hmem) hprocessed)

/-- After any number of picks the graph is what is left of the built one, and unless it is empty by now every pick has
handed out something. -/
theorem PickedFrom.leftOver {program : Program} (hprogram : program.Coherent) {mapping : MethodMapping} {count : Nat}
    {handed : List MethodId} {graph : CallGraph} (h : PickedFrom program mapping count handed graph) :
    LeftOver (build program mapping) handed graph ∧ (graph.nodes = [] ∨ count ≤ handed.length) := by
  induction h with
  | start =>
    refine ⟨⟨Peelable.build program mapping, (remaining_nil _).symm, List.nodup_nil, List.nil_subset _⟩, .inr ?_⟩
    exact Nat.zero_le _
  | @pick count handed graph isProcessed _ hfresh ih =>
    obtain ⟨hleft, hcount⟩ := ih
    by_cases hnodes : graph.nodes = []
    · rw [pick_of_isEmpty hleft.peelable hnodes, handedOut, List.append_nil]
      exact ⟨hleft, .inl hnodes⟩
    · obtain ⟨rest, hpick, hrest⟩ := hleft.pick hnodes (isProcessed_eq_false hprogram hleft hfresh)
      rw [hpick]
      refine ⟨hrest, .inr ?_⟩
      have hwave := List.length_pos_of_ne_nil (nextWave_methods_ne_nil hnodes)
      have hcount := hcount.resolve_left hnodes
      rw [handedOut, List.length_append]
      omega

/-! ### Picking everything -/

/-- The waves that take a graph apart completely, each the next one of what the waves before it have left. -/
inductive TakenApart : CallGraph → List Wave → Prop
  | done {graph : CallGraph} : graph.Peelable → graph.nodes = [] → TakenApart graph []
  | wave {graph rest : CallGraph} {waves : List Wave} : graph.Peelable → graph.nodes ≠ [] →
      rest.nodes = remaining graph.nodes graph.nextWave.methods → TakenApart rest waves →
      TakenApart graph (graph.nextWave :: waves)

theorem TakenApart.peelable {graph : CallGraph} {waves : List Wave} (h : TakenApart graph waves) : graph.Peelable := by
  cases h with
  | done hpeelable => exact hpeelable
  | wave hpeelable => exact hpeelable

theorem drain_of_wave {graph rest : CallGraph} {isProcessed : MethodId → Bool} {wave : Wave}
    (h : graph.pick isProcessed = (rest, .ok (some wave))) :
    graph.drain isProcessed
      = { rest.drain isProcessed with waves := wave :: (rest.drain isProcessed).waves } := by
  rw [drain]
  split
  · next heq => simp [h] at heq
  · next heq => simp [h] at heq
  · next later picked heq =>
    obtain ⟨rfl, rfl⟩ : rest = later ∧ wave = picked := by simpa [h] using heq
    rfl

theorem drain_of_isEmpty {graph : CallGraph} (h : graph.Peelable) (hnodes : graph.nodes = [])
    (isProcessed : MethodId → Bool) : graph.drain isProcessed = { rest := graph } := by
  have hpick := pick_of_isEmpty h hnodes isProcessed
  rw [drain]
  split
  · next heq => simp [hpick] at heq
  · next rest heq =>
    obtain rfl : graph = rest := by simpa [hpick] using heq
    rfl
  · next heq => simp [hpick] at heq

theorem drain_takenApart {graph : CallGraph} (h : graph.Peelable) {isProcessed : MethodId → Bool}
    (hfresh : ∀ method ∈ graph.methods, isProcessed method = false) :
    TakenApart graph (graph.drain isProcessed).waves ∧ (graph.drain isProcessed).error = none := by
  -- every wave leaves a smaller graph
  induction hsize : graph.size using Nat.strong_induction_on generalizing graph with
  | _ size ih =>
    subst hsize
    by_cases hnodes : graph.nodes = []
    · rw [drain_of_isEmpty h hnodes]
      exact ⟨.done h hnodes, rfl⟩
    · obtain ⟨rest, hpick, hrest, hpeelable⟩ := pick_eq h hnodes hfresh
      have hstillFresh : ∀ method ∈ rest.methods, isProcessed method = false := by
        intro method hmethod
        rw [methods, hrest, methods_remaining] at hmethod
        exact hfresh method (List.mem_of_mem_filter hmethod)
      obtain ⟨htaken, herror⟩ := ih rest.size (size_pick_lt hpick) hpeelable hstillFresh rfl
      rw [drain_of_wave hpick]
      exact ⟨.wave h hnodes hrest htaken, herror⟩

theorem TakenApart.waves_methods_perm {graph : CallGraph} {waves : List Wave} (h : TakenApart graph waves)
    (hgraph : graph.methods.Nodup) : (waves.flatMap (·.methods)).Perm graph.methods := by
  induction h with
  | @done graph _ hnodes => simp [methods, hnodes]
  | @wave graph rest waves hpeelable hnodes hrest _ ih =>
    have hmethods : rest.methods = graph.methods.filter (· ∉ graph.nextWave.methods) := by
      rw [methods, hrest, methods_remaining]
      rfl
    have hwaves := ih (by rw [hmethods]; exact hgraph.filter _)
    rw [List.flatMap_cons]
    refine (hwaves.append_left _).trans ?_
    rw [hmethods]
    exact append_filter_not_mem_perm hgraph (nextWave_methods_nodup hpeelable) (nextWave_methods_subset hpeelable)

theorem TakenApart.length_le {graph : CallGraph} {waves : List Wave} (h : TakenApart graph waves) :
    waves.length ≤ (waves.flatMap (·.methods)).length := by
  induction h with
  | done => exact Nat.zero_le _
  | wave _ hnodes _ _ ih =>
    have hwave := List.length_pos_of_ne_nil (nextWave_methods_ne_nil hnodes)
    rw [List.flatMap_cons, List.length_append, List.length_cons]
    omega

/-! ### No method is lost or repeated -/

/-- The graph of a program that some methods were picked from is in order. In its slots, an edge stands at both of its
ends, which are different and not empty; the index leads to exactly the methods of the slots that are not empty; the
count is their number; and the leaves are, each once, those without callees. Read by methods, its nodes are those of the
program's methods that were not handed out. -/
structure InOrder (program : Program) (handed : List MethodId) (graph : CallGraph) : Prop where
  symmetric : graph.checkSymmetry = .ok ()
  slots_inverse : ∀ caller source callee target, graph.slot? caller = some source → graph.slot? callee = some target →
    (callee ∈ source.callees ↔ caller ∈ target.callers)
  slots_edge : ∀ position slot, graph.slot? position = some slot → ∀ other ∈ slot.callees ++ slot.callers,
    other ≠ position ∧ ∃ found, graph.slot? other = some found
  index : ∀ method position, graph.index.find? method = some position ↔
    ∃ slot, graph.slot? position = some slot ∧ slot.method = method
  live : graph.live = graph.slots.countP Option.isSome
  leaves_nodup : graph.leaves.Nodup
  leaves : ∀ position, position ∈ graph.leaves ↔ ∃ slot, graph.slot? position = some slot ∧ slot.callees = []
  inverse : ∀ caller callee, callee ∈ graph.callees caller ↔ caller ∈ graph.callers callee
  edge : ∀ caller callee, callee ∈ graph.callees caller →
    callee ≠ caller ∧ graph.contains caller = true ∧ graph.contains callee = true
  node : ∀ method node, graph.node? method = some node ↔ node ∈ graph.nodes ∧ node.method = method
  contains : ∀ method, graph.contains method = true ↔ method ∈ program.programMethods ∧ method ∉ handed
  size : graph.size + handed.length = program.programMethods.length
  frontier_nodup : graph.frontier.Nodup
  frontier : ∀ method, method ∈ graph.frontier ↔ graph.contains method = true ∧ graph.callees method = []
  handed_nodup : handed.Nodup
  handed_subset : handed ⊆ program.programMethods

private theorem LeftOver.inOrder {program : Program} (hprogram : program.Coherent) {mapping : MethodMapping}
    {handed : List MethodId} {graph : CallGraph} (h : LeftOver (build program mapping) handed graph) :
    InOrder program handed graph := by
  have hlinked := h.peelable.linked
  constructor
  case symmetric => exact hlinked.checkSymmetry_eq_ok
  case slots_inverse => exact fun _ _ _ _ hcaller hcallee => (hlinked.mem_callers_iff hcaller hcallee).symm
  case slots_edge =>
    intro position slot hslot other hother
    have hself : position ∉ slot.callees := hlinked.no_self_call position slot hslot
    rcases List.mem_append.1 hother with hcallee | hcaller
    · obtain ⟨target, htarget, -⟩ := hlinked.callee_listed position slot hslot other hcallee
      exact ⟨fun heq => hself (heq ▸ hcallee), target, htarget⟩
    · obtain ⟨source, hsource, -⟩ := hlinked.caller_listed position slot hslot other hcaller
      refine ⟨fun heq => hself ?_, source, hsource⟩
      rwa [heq, hlinked.mem_callers_iff hslot hslot] at hcaller
  case index =>
    intro method position
    rw [hlinked.indexed, methodAt?_eq_some]
  case live => exact hlinked.counted
  case leaves_nodup => exact h.peelable.leaves.nodup
  case leaves => exact fun _ => h.peelable.mem_leaves
  case inverse => exact fun _ _ => hlinked.mem_callees_iff
  case edge =>
    intro caller callee hedge
    refine ⟨?_, hlinked.contains_iff.2 (hlinked.mem_methods_of_mem_callees hedge),
      hlinked.contains_iff.2 (hlinked.mem_methods_of_callee hedge)⟩
    rintro rfl
    exact hlinked.not_mem_callees_self callee hedge
  case node => exact fun _ _ => hlinked.node?_eq_some_iff
  case contains =>
    intro method
    rw [hlinked.contains_iff, h.mem_methods_iff, (methods_build_perm hprogram mapping).mem_iff]
  case size =>
    have hlength := ((h.perm (Peelable.build program mapping).balanced.distinct).trans
      (methods_build_perm hprogram mapping)).length_eq
    rw [List.length_append, methods, List.length_map] at hlength
    rw [hlinked.size_eq]
    omega
  case frontier_nodup => exact h.peelable.frontier_nodup
  case frontier =>
    intro method
    rw [h.peelable.mem_frontier_iff, hlinked.contains_iff]
  case handed_nodup => exact h.handed_nodup
  case handed_subset => exact List.Subset.trans h.handed_subset (methods_build_perm hprogram mapping).subset

theorem LeftOver.nodes_eq_nil_iff {program : Program} (hprogram : program.Coherent) {mapping : MethodMapping}
    {handed : List MethodId} {graph : CallGraph} (h : LeftOver (build program mapping) handed graph) :
    graph.nodes = [] ↔ handed.Perm program.programMethods := by
  have hperm := (h.perm (Peelable.build program mapping).balanced.distinct).trans (methods_build_perm hprogram mapping)
  constructor
  · intro hnodes
    rwa [methods, hnodes, List.map_nil, List.append_nil] at hperm
  · intro hall
    have hlength := hperm.length_eq
    rw [List.length_append, hall.length_eq, methods, List.length_map] at hlength
    exact List.length_eq_zero_iff.1 (by omega)

/-- **Progress.** However often waves were picked from a program's graph, it is in order; the next pick does not fail, it
gives no wave exactly if every method was handed out, and otherwise a wave with methods. As many picks as there are
methods hand out every method once, and so does draining the graph. -/
theorem picking_hands_out_every_method {program : Program} (h : program.Built) (mapping : MethodMapping) :
    (∀ count handed graph, PickedFrom program mapping count handed graph →
      InOrder program handed graph ∧
      (program.programMethods.length ≤ count → handed.Perm program.programMethods) ∧
      ∀ isProcessed : MethodId → Bool,
        (∀ method ∈ program.programMethods, isProcessed method = true → method ∈ handed) →
        ∃ wave?, (graph.pick isProcessed).2 = .ok wave? ∧ (wave? = none ↔ handed.Perm program.programMethods) ∧
          ∀ wave, wave? = some wave → wave.methods ≠ []) ∧
    ∀ isProcessed : MethodId → Bool, (∀ method ∈ program.programMethods, isProcessed method = false) →
      ((build program mapping).drain isProcessed).error = none ∧
      (((build program mapping).drain isProcessed).waves.flatMap (·.methods)).Perm program.programMethods ∧
      ((build program mapping).drain isProcessed).waves.length ≤ program.programMethods.length := by
  have hprogram := h.coherent
  have hbuild := methods_build_perm hprogram mapping
  constructor
  · intro count handed graph hpicked
    obtain ⟨hleft, hcount⟩ := hpicked.leftOver hprogram
    have horder := hleft.inOrder hprogram
    refine ⟨horder, ?_, ?_⟩
    · intro henough
      refine (hleft.nodes_eq_nil_iff hprogram).1 (hcount.elim id fun hle => ?_)
      have hsize := horder.size
      rw [hleft.peelable.linked.size_eq] at hsize
      exact List.length_eq_zero_iff.1 (by omega)
    · intro isProcessed hfresh
      by_cases hnodes : graph.nodes = []
      · refine ⟨none, by rw [pick_of_isEmpty hleft.peelable hnodes], ?_, by simp⟩
        exact iff_of_true rfl ((hleft.nodes_eq_nil_iff hprogram).1 hnodes)
      · obtain ⟨rest, hpick, -⟩ := hleft.pick hnodes (isProcessed_eq_false hprogram hleft hfresh)
        refine ⟨some graph.nextWave, by rw [hpick], ?_, ?_⟩
        · exact iff_of_false (Option.some_ne_none _) fun hall => hnodes ((hleft.nodes_eq_nil_iff hprogram).2 hall)
        · intro wave heq
          rw [← Option.some.inj heq]
          exact nextWave_methods_ne_nil hnodes
  · intro isProcessed hfresh
    have hstart := Peelable.build program mapping
    obtain ⟨htaken, herror⟩ := drain_takenApart hstart fun method hmethod => hfresh method (hbuild.mem_iff.1 hmethod)
    have hperm := (htaken.waves_methods_perm hstart.balanced.distinct).trans hbuild
    exact ⟨herror, hperm, hperm.length_eq ▸ htaken.length_le⟩

/-- A class with two static methods and the methods they call. -/
def twoMethods (first second : List String) : Program :=
  let flags : AccessFlags := AccessFlags.withStatic ⟨1⟩
  let declared := (({} : Program).declareClass "LA;" .program ⟨1⟩ none []).1
  let withMethods := ((declared.addMethod ⟨0⟩ "f" "()V" flags).1.addMethod ⟨0⟩ "g" "()V" flags).1
  let call (callee : String) : Instruction :=
    { operation := .invoke none .static { holder := ⟨0⟩, name := callee, descriptor := "()V" } [] }
  let body (method : Nat) (callees : List String) : Body :=
    { method := ⟨method⟩
      blocks := [{ instructions := callees.map call ++ [{ operation := .return none }] }] }
  (withMethods.putBody ⟨0⟩ (body 0 first)).putBody ⟨1⟩ (body 1 second)

private theorem twoMethods_built (first second : List String) : (twoMethods first second).Built :=
  .putBody _ _ (.putBody _ _ (.addMethod _ _ _ _ (.addMethod _ _ _ _ (.declareClass _ _ _ _ _ .empty))))

/-- Two methods that call each other. -/
def mutualCalls : Program :=
  twoMethods ["g"] ["f"]

/-- After one pick from a graph in which the first method calls the second, the second slot is empty. Two methods that
call each other are handed out as well. -/
theorem picking_hands_out_mutualCalls :
    let rest := ((build (twoMethods ["g"] []) .empty).pick fun _ => false).1
    ((twoMethods ["g"] []).Built ∧ rest.slots.map Option.isSome = [true, false] ∧ rest.live = 1 ∧ rest.leaves = [0] ∧
      InOrder (twoMethods ["g"] []) [⟨1⟩] rest) ∧
    mutualCalls.Built ∧ mutualCalls.programMethods = [⟨0⟩, ⟨1⟩] ∧
      ((build mutualCalls .empty).drain fun _ => false).error = none ∧
      (((build mutualCalls .empty).drain fun _ => false).waves.flatMap (·.methods)).Perm [⟨0⟩, ⟨1⟩] := by
  intro rest
  have hpicked : PickedFrom (twoMethods ["g"] []) .empty 1 [⟨1⟩] rest := by
    have hstart : PickedFrom (twoMethods ["g"] []) .empty 0 [] (build (twoMethods ["g"] []) .empty) := .start
    have hfresh : ∀ method ∈ (twoMethods ["g"] []).programMethods,
        (fun _ : MethodId => false) method = true → method ∈ [] :=
      fun _ _ hprocessed => absurd hprocessed Bool.false_ne_true
    have hfirst := hstart.pick hfresh
    have hhanded : handedOut ((build (twoMethods ["g"] []) .empty).pick fun _ => false).2 = [⟨1⟩] := by decide +kernel
    rwa [hhanded] at hfirst
  have horder := ((picking_hands_out_every_method (twoMethods_built ["g"] []) .empty).1 1 [⟨1⟩] rest hpicked).1
  have hdrain := (picking_hands_out_every_method (twoMethods_built ["g"] ["f"]) .empty).2 (fun _ => false) fun _ _ => rfl
  exact ⟨⟨twoMethods_built _ _, by decide +kernel, by decide +kernel, by decide +kernel, horder⟩, twoMethods_built _ _,
    rfl, hdrain.1, hdrain.2.1⟩

end Bytecode.CallGraph
