import Bytecode.Proofs.CallGraph.Waves
import Mathlib.Data.List.Rotate
/-!
# Breaking cycles

A graph with nodes and no leaf holds a cycle, and a pick has to cut calls before it can hand out anything. Which calls
are cut depends only on the numbers of calls before the pick: those of every method with a single call that is no bridge,
or, if there is no such method, those of every method with the fewest calls. The methods leave in the order in which they
were added, the wave records the calls they had, and no other edge of the graph changes.

The rule holds of every graph that picking can leave, whatever was processed in the meantime: a refused wave is taken
out like any other.
-/

namespace Bytecode.CallGraph

/-- The graph of a program after any number of picks, with any methods processed at each of them. -/
inductive LeftByPicks (program : Program) (mapping : MethodMapping) : CallGraph → Prop
  | built : LeftByPicks program mapping (build program mapping)
  | pick {graph : CallGraph} (isProcessed : MethodId → Bool) : LeftByPicks program mapping graph →
      LeftByPicks program mapping (graph.pick isProcessed).1

/-- How a wave is taken from a graph without leaves: which methods it hands out, which calls it records as cut, and what
it leaves. -/
structure BreaksCycles (graph : CallGraph) (wave : Wave) (rest : CallGraph) : Prop where
  brokeCycles : wave.brokeCycles = true
  single_call : (∃ node ∈ graph.nodes, node.isBridge = false ∧ node.degree ≤ 1) →
    wave.methods = (graph.nodes.filter fun node => node.isBridge = false ∧ node.degree ≤ 1).map (·.method)
  fewest_calls : (∀ node ∈ graph.nodes, node.isBridge = false → 1 < node.degree) →
    wave.methods = (graph.nodes.filter fun node => ∀ other ∈ graph.nodes, node.degree ≤ other.degree).map (·.method)
  bridge_last : ∀ bridge ∈ graph.nodes, bridge.isBridge = true → bridge.method ∈ wave.methods →
    ∀ node ∈ graph.nodes, node.isBridge = false → 1 < node.degree
  severed : wave.severed = wave.methods.map fun method => (method, graph.callees method)
  methods_left : rest.methods = graph.methods.filter (· ∉ wave.methods)
  callees_kept : ∀ caller, caller ∉ wave.methods →
    rest.callees caller = (graph.callees caller).filter (· ∉ wave.methods)
  callers_kept : ∀ callee, callee ∉ wave.methods →
    rest.callers callee = (graph.callers callee).filter (· ∉ wave.methods)

/-- The graph is one cycle: in turn, each method calls the next one and nothing else. -/
structure IsCycle (graph : CallGraph) (cycle : List MethodId) : Prop where
  two_le : 2 ≤ cycle.length
  nodup : cycle.Nodup
  mem_iff : ∀ method, method ∈ cycle ↔ method ∈ graph.methods
  calls : cycle.map graph.callees = (cycle.rotate 1).map fun next => [next]

/-! ### The graphs that picking leaves -/

theorem LeftByPicks.remaining {program : Program} {mapping : MethodMapping} {graph : CallGraph}
    (h : LeftByPicks program mapping graph) :
    graph.Peelable ∧ ∃ gone, graph.nodes = remaining (build program mapping).nodes gone := by
  induction h with
  | built => exact ⟨Peelable.build program mapping, [], (remaining_nil _).symm⟩
  | @pick graph isProcessed _ ih =>
    obtain ⟨hpeelable, gone, hgone⟩ := ih
    by_cases hnodes : graph.nodes = []
    · rw [pick_of_isEmpty hpeelable hnodes]
      exact ⟨hpeelable, gone, hgone⟩
    · obtain ⟨rest, hpick, hrest, hleft⟩ := pick_eq_accept hpeelable hnodes
      rw [hpick]
      refine ⟨hleft, gone ++ graph.nextWave.methods, ?_⟩
      rw [hrest, hgone, remaining_remaining]

private theorem LeftByPicks.methods_sublist {program : Program} {mapping : MethodMapping} {graph : CallGraph}
    (h : LeftByPicks program mapping graph) : graph.methods.Sublist (build program mapping).methods := by
  obtain ⟨-, gone, hgone⟩ := h.remaining
  rw [methods, hgone, methods_remaining]
  exact List.filter_sublist

/-! ### The chosen nodes -/

theorem isSingleCall_iff {node : CallNode} : isSingleCall node = true ↔ node.isBridge = false ∧ node.degree ≤ 1 := by
  simp [isSingleCall]

private theorem cutNodes_of_single_call {nodes : List CallNode}
    (hsome : ∃ node ∈ nodes, node.isBridge = false ∧ node.degree ≤ 1) :
    cutNodes nodes = nodes.filter fun node => node.isBridge = false ∧ node.degree ≤ 1 := by
  obtain ⟨node, hnode, hsingle⟩ := hsome
  have hmem : node ∈ nodes.filter isSingleCall := List.mem_filter.2 ⟨hnode, isSingleCall_iff.2 hsingle⟩
  rw [cutNodes, if_neg (by simpa using List.ne_nil_of_mem hmem)]
  apply List.filter_congr
  intro other _
  rw [Bool.eq_iff_iff, isSingleCall_iff, decide_eq_true_iff]

private theorem cutNodes_of_many_calls {nodes : List CallNode}
    (hmany : ∀ node ∈ nodes, node.isBridge = false → 1 < node.degree) :
    cutNodes nodes = nodes.filter fun node => ∀ other ∈ nodes, node.degree ≤ other.degree := by
  have hnone : nodes.filter isSingleCall = [] := by
    rw [List.filter_eq_nil_iff]
    intro node hnode hsingle
    obtain ⟨hbridge, hdegree⟩ := isSingleCall_iff.1 hsingle
    exact Nat.not_lt_of_le hdegree (hmany node hnode hbridge)
  rw [cutNodes, hnone]
  apply List.filter_congr
  intro node _
  rw [Bool.eq_iff_iff, List.all_eq_true, decide_eq_true_iff]
  exact forall₂_congr fun other _ => decide_eq_true_iff

/-- A bridge is among the chosen nodes only if nothing else has as little as one call. -/
theorem one_lt_degree_of_bridge_cut {nodes : List CallNode} {bridge : CallNode} (hbridge : bridge.isBridge = true)
    (hcut : bridge ∈ cutNodes nodes) {node : CallNode} (hnode : node ∈ nodes) (hplain : node.isBridge = false) :
    1 < node.degree := by
  by_contra hfew
  rw [cutNodes_of_single_call ⟨node, hnode, hplain, Nat.le_of_not_lt hfew⟩, List.mem_filter, decide_eq_true_iff] at hcut
  exact Bool.false_ne_true (hcut.2.1.symm.trans hbridge)

/-! ### The pick -/

/-- Without a leaf the next wave is the one the rule describes. -/
theorem Peelable.breaksCycles {graph rest : CallGraph} (h : graph.Peelable) (hfrontier : graph.frontier = [])
    (hlinked : rest.Linked) (hrest : rest.nodes = CallGraph.remaining graph.nodes graph.nextWave.methods) :
    BreaksCycles graph graph.nextWave rest := by
  have hwave := nextWave_of_cycle hfrontier
  have hmethods : graph.nextWave.methods = (cutNodes graph.nodes).map (·.method) := by rw [hwave]
  refine ⟨by rw [hwave], ?_, ?_, ?_, ?_, ?_, fun caller => h.linked.callees_remaining hlinked hrest,
    fun callee => h.linked.callers_remaining hlinked hrest⟩
  · intro hsome
    rw [hmethods, cutNodes_of_single_call hsome]
  · intro hmany
    rw [hmethods, cutNodes_of_many_calls hmany]
  · intro bridge hmem hbridge hhanded node hnode hplain
    rw [hmethods] at hhanded
    obtain ⟨cut, hcut, hmethod⟩ := List.mem_map.1 hhanded
    obtain rfl := eq_of_method_eq h.balanced.distinct (cutNodes_subset _ hcut) hmem hmethod
    exact one_lt_degree_of_bridge_cut hbridge hcut hnode hplain
  · have hcallees : ∀ node ∈ cutNodes graph.nodes, (node.method, node.callees)
        = (node.method, graph.callees node.method) := by
      intro node hnode
      rw [h.linked.callees_eq (cutNodes_subset _ hnode)]
    rw [hwave, List.map_map]
    exact List.map_congr_left hcallees
  · rw [methods, hrest, methods_remaining]
    rfl

/-- A cycle has no leaf, and every method of it has one call. -/
theorem IsCycle.degree_eq_one {graph : CallGraph} {cycle : List MethodId} (h : graph.IsCycle cycle)
    (hgraph : graph.Linked) {node : CallNode} (hnode : node ∈ graph.nodes) : node.degree = 1 := by
  have hmem : graph.callees node.method ∈ cycle.map graph.callees :=
    List.mem_map_of_mem ((h.mem_iff _).2 (mem_methods.2 ⟨node, hnode, rfl⟩))
  rw [h.calls, List.mem_map] at hmem
  obtain ⟨next, -, hcallees⟩ := hmem
  rw [hgraph.callees_eq hnode] at hcallees
  rw [CallNode.degree, ← hcallees, List.length_singleton]

theorem IsCycle.nodes_ne_nil {graph : CallGraph} {cycle : List MethodId} (h : graph.IsCycle cycle) :
    graph.nodes ≠ [] := by
  intro hnodes
  have hlength := h.two_le
  obtain ⟨first, hfirst⟩ := List.exists_mem_of_length_pos (show 0 < cycle.length by omega)
  have hmethod := (h.mem_iff first).1 hfirst
  rw [methods, hnodes] at hmethod
  exact List.not_mem_nil hmethod

private theorem IsCycle.frontier_eq_nil {graph : CallGraph} {cycle : List MethodId} (h : graph.IsCycle cycle)
    (hgraph : graph.Peelable) : graph.frontier = [] := by
  rw [List.eq_nil_iff_forall_not_mem]
  intro method hmethod
  obtain ⟨node, hnode, -, hcallees⟩ := hgraph.mem_frontier.1 hmethod
  have hdegree := h.degree_eq_one hgraph.linked hnode
  rw [CallNode.degree, hcallees] at hdegree
  exact absurd hdegree (by decide)

/-- A cycle without bridges leaves as a whole. -/
theorem BreaksCycles.of_cycle {graph rest : CallGraph} {wave : Wave} (h : BreaksCycles graph wave rest)
    (hgraph : graph.Linked) {cycle : List MethodId} (hcycle : graph.IsCycle cycle)
    (hplain : ∀ node ∈ graph.nodes, node.isBridge = false) : wave.methods = graph.methods ∧ rest.nodes = [] := by
  have hsingle : ∀ node ∈ graph.nodes, node.isBridge = false ∧ node.degree ≤ 1 := fun node hnode =>
    ⟨hplain node hnode, Nat.le_of_eq (hcycle.degree_eq_one hgraph hnode)⟩
  obtain ⟨node, hnode⟩ := List.exists_mem_of_ne_nil _ hcycle.nodes_ne_nil
  have hall : wave.methods = graph.methods := by
    rw [h.single_call ⟨node, hnode, hsingle node hnode⟩, methods, List.filter_eq_self.2]
    intro other hother
    exact decide_eq_true (hsingle other hother)
  have hleft := h.methods_left
  rw [hall, List.filter_eq_nil_iff.2 (by simp), methods, List.map_eq_nil_iff] at hleft
  exact ⟨hall, hleft⟩

/-- **Breaking cycles.** Whatever was picked from a program's graph before, its methods are in the order in which they
were added. If it has nodes but no leaf, the next pick takes the methods with a single call that are no bridges, and if
there is none those with the fewest calls, counted before anything is cut; it records exactly their calls, and all other
edges stay. A cycle of methods that are no bridges is taken out at once. -/
theorem pick_breaks_cycles {program : Program} {mapping : MethodMapping} {graph : CallGraph}
    (h : LeftByPicks program mapping graph) :
    graph.methods.Sublist (build program mapping).methods ∧
    (graph.nodes ≠ [] → graph.frontier = [] →
      ∃ wave rest, (∀ isProcessed, graph.pick isProcessed = (rest, acceptWave isProcessed wave)) ∧
        BreaksCycles graph wave rest) ∧
    ∀ cycle, graph.IsCycle cycle → (∀ node ∈ graph.nodes, node.isBridge = false) →
      ∃ wave rest, (∀ isProcessed, graph.pick isProcessed = (rest, acceptWave isProcessed wave)) ∧
        BreaksCycles graph wave rest ∧ wave.methods = graph.methods ∧ rest.nodes = [] := by
  obtain ⟨hpeelable, -⟩ := h.remaining
  have hrule (hnodes : graph.nodes ≠ []) (hfrontier : graph.frontier = []) :
      ∃ wave rest, (∀ isProcessed, graph.pick isProcessed = (rest, acceptWave isProcessed wave)) ∧
        BreaksCycles graph wave rest := by
    obtain ⟨rest, hpick, hrest, hleft⟩ := pick_eq_accept hpeelable hnodes
    exact ⟨graph.nextWave, rest, hpick, hpeelable.breaksCycles hfrontier hleft.linked hrest⟩
  refine ⟨h.methods_sublist, hrule, fun cycle hcycle hplain => ?_⟩
  obtain ⟨wave, rest, hpick, hbreaks⟩ := hrule hcycle.nodes_ne_nil (hcycle.frontier_eq_nil hpeelable)
  exact ⟨wave, rest, hpick, hbreaks, hbreaks.of_cycle hpeelable.linked hcycle hplain⟩

/-- Three static methods: the first calls the other two, the second is a bridge that calls it back. -/
def bridgedCycle : Program :=
  let flags : AccessFlags := AccessFlags.withStatic ⟨1⟩
  let declared := (({} : Program).declareClass "LA;" .program ⟨1⟩ none []).1
  let withMethods := (((declared.addMethod ⟨0⟩ "f" "()V" flags).1.addMethod ⟨0⟩ "g" "()V"
    ⟨flags.bits ||| 0x40#32⟩).1.addMethod ⟨0⟩ "h" "()V" flags).1
  let call (callee : String) : Instruction :=
    { operation := .invoke none .static { holder := ⟨0⟩, name := callee, descriptor := "()V" } [] }
  let body (method : Nat) (callees : List String) : Body :=
    { method := ⟨method⟩
      blocks := [{ instructions := callees.map call ++ [{ operation := .return none }] }] }
  ((withMethods.putBody ⟨0⟩ (body 0 ["g", "h"])).putBody ⟨1⟩ (body 1 ["f"])).putBody ⟨2⟩ (body 2 [])

/-- Once the leaf is gone the first method and the bridge have one call each, and only the first one is taken. Two
methods that call each other are taken together. -/
theorem pick_breaks_bridgedCycle :
    let graph := ((build bridgedCycle .empty).pick fun _ => false).1
    LeftByPicks bridgedCycle .empty graph ∧
      graph.nodes.map (fun node => (node.isBridge, node.degree)) = [(false, 1), (true, 1)] ∧ graph.frontier = [] ∧
      (∃ wave rest, (∀ isProcessed, graph.pick isProcessed = (rest, acceptWave isProcessed wave)) ∧
        wave.methods = [⟨0⟩] ∧ wave.severed = [(⟨0⟩, [⟨1⟩])]) ∧
      (build mutualCalls .empty).IsCycle [⟨0⟩, ⟨1⟩] ∧
      ∃ wave rest, (∀ isProcessed, (build mutualCalls .empty).pick isProcessed = (rest, acceptWave isProcessed wave)) ∧
        wave.methods = (build mutualCalls .empty).methods := by
  intro graph
  have hleft : LeftByPicks bridgedCycle .empty graph := .pick _ .built
  have hfrontier : graph.frontier = [] := by decide +kernel
  obtain ⟨wave, rest, hpick, hbreaks⟩ := (pick_breaks_cycles hleft).2.1 (by decide +kernel) hfrontier
  have hmethods : wave.methods = [⟨0⟩] := (hbreaks.single_call (by decide +kernel)).trans (by decide +kernel)
  have hsevered : wave.severed = [(⟨0⟩, [⟨1⟩])] := by
    rw [hbreaks.severed, hmethods]
    decide +kernel
  have hlisted : (build mutualCalls .empty).methods = [⟨0⟩, ⟨1⟩] := by decide +kernel
  have hcycle : (build mutualCalls .empty).IsCycle [⟨0⟩, ⟨1⟩] :=
    ⟨Nat.le_refl 2, by decide, fun method => by rw [hlisted], by decide +kernel⟩
  have hbuilt : LeftByPicks mutualCalls .empty (build mutualCalls .empty) := .built
  obtain ⟨both, left, hboth, -, hall, -⟩ := (pick_breaks_cycles hbuilt).2.2 _ hcycle (by decide +kernel)
  exact ⟨hleft, by decide +kernel, hfrontier, ⟨wave, rest, hpick, hmethods, hsevered⟩, hcycle, both, left, hboth, hall⟩

end Bytecode.CallGraph
