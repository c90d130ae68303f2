import Bytecode.Proofs.CallGraph.Waves
import Mathlib.Data.Set.Finite.List
import Mathlib.Order.WellFounded
/-!
# The order of the waves

When a graph is taken apart wave by wave, a method is handed out after everything it calls, except for the calls that were
cut to break cycles; these are recorded with the wave that cut them. A method whose calls were not cut is handed out as
early as its callees allow. All of this is proved along the waves: a wave takes its methods out of the graph, and every
edge between methods that stay is an edge of the graph that is left.

Without cycles nothing is cut, and the number of a method's wave is the length of the longest chain of calls from it.
-/

namespace Bytecode.CallGraph

/-- The number of the wave that hands out a method, counted from one. -/
def stepOf (waves : List Wave) (method : MethodId) : Nat :=
  waves.findIdx (method ∈ ·.methods) + 1

/-- The wave that hands out the caller broke cycles, and this call is one that it cut. -/
def SeveredAt (waves : List Wave) (caller callee : MethodId) : Prop :=
  ∃ wave callees, waves[stepOf waves caller - 1]? = some wave ∧ wave.brokeCycles = true ∧
    (caller, callees) ∈ wave.severed ∧ callee ∈ callees

/-- No method calls itself, directly or through others. -/
def Acyclic (graph : CallGraph) : Prop :=
  ∀ method, ¬Relation.TransGen (fun caller callee => callee ∈ graph.callees caller) method method

/-! ### Steps -/

theorem stepOf_pos (waves : List Wave) (method : MethodId) : 1 ≤ stepOf waves method :=
  Nat.le_add_left 1 _

theorem stepOf_cons_of_mem {wave : Wave} {method : MethodId} (h : method ∈ wave.methods) (waves : List Wave) :
    stepOf (wave :: waves) method = 1 := by
  simp [stepOf, List.findIdx_cons, h]

theorem stepOf_cons_of_not_mem {wave : Wave} {method : MethodId} (h : method ∉ wave.methods) (waves : List Wave) :
    stepOf (wave :: waves) method = stepOf waves method + 1 := by
  simp [stepOf, List.findIdx_cons, h]

private theorem getElem?_stepOf_cons {wave : Wave} {method : MethodId} (h : method ∉ wave.methods) (waves : List Wave) :
    (wave :: waves)[stepOf (wave :: waves) method - 1]? = waves[stepOf waves method - 1]? := by
  have hpos := stepOf_pos waves method
  rw [stepOf_cons_of_not_mem h, List.getElem?_cons, if_neg (by omega)]
  congr 1

theorem SeveredAt.cons {waves : List Wave} {caller callee : MethodId} (h : SeveredAt waves caller callee) {wave : Wave}
    (hcaller : caller ∉ wave.methods) : SeveredAt (wave :: waves) caller callee := by
  obtain ⟨found, callees, hfound, hcut⟩ := h
  exact ⟨found, callees, (getElem?_stepOf_cons hcaller waves).trans hfound, hcut⟩

/-! ### One wave -/

theorem mem_methods_remaining {graph rest : CallGraph} {gone : List MethodId}
    (hrest : rest.nodes = remaining graph.nodes gone) {method : MethodId} :
    method ∈ rest.methods ↔ method ∈ graph.methods ∧ method ∉ gone := by
  rw [methods, hrest, methods_remaining, List.mem_filter, decide_eq_true_iff]
  rfl

theorem brokeCycles_nextWave {graph : CallGraph} : graph.nextWave.brokeCycles = true ↔ graph.frontier = [] := by
  by_cases hfrontier : graph.frontier = []
  · rw [nextWave_of_cycle hfrontier]
    exact iff_of_true rfl hfrontier
  · rw [nextWave_of_frontier hfrontier]
    exact iff_of_false Bool.false_ne_true hfrontier

/-- A wave that breaks cycles cuts all calls of the methods it hands out; any other wave cuts nothing. -/
theorem mem_severed_nextWave {graph : CallGraph} (h : graph.Peelable) {caller : MethodId} {callees : List MethodId} :
    (caller, callees) ∈ graph.nextWave.severed ↔
      graph.frontier = [] ∧ caller ∈ graph.nextWave.methods ∧ callees = graph.callees caller := by
  by_cases hfrontier : graph.frontier = []
  · rw [nextWave_of_cycle hfrontier]
    simp only [List.mem_map, Prod.mk.injEq, hfrontier, true_and]
    constructor
    · rintro ⟨node, hnode, rfl, rfl⟩
      have hcallees := h.linked.callees_eq (cutNodes_subset graph.nodes hnode)
      exact ⟨⟨node, hnode, rfl⟩, hcallees.symm⟩
    · rintro ⟨⟨node, hnode, rfl⟩, rfl⟩
      have hcallees := h.linked.callees_eq (cutNodes_subset graph.nodes hnode)
      exact ⟨node, hnode, rfl, hcallees.symm⟩
  · rw [nextWave_of_frontier hfrontier]
    exact iff_of_false List.not_mem_nil fun hcut => hfrontier hcut.1

/-- A method without calls is in the next wave. -/
theorem callees_ne_nil_of_not_mem_nextWave {graph : CallGraph} (h : graph.Peelable) {method : MethodId}
    (hmethod : method ∈ graph.methods) (hwave : method ∉ graph.nextWave.methods) : graph.callees method ≠ [] := by
  intro hcallees
  have hleaf := h.mem_frontier_iff.2 ⟨hmethod, hcallees⟩
  rw [nextWave_of_frontier (List.ne_nil_of_mem hleaf)] at hwave
  exact hwave hleaf

/-! ### All waves -/

namespace TakenApart

variable {graph : CallGraph} {waves : List Wave}

private theorem mem_wave (h : TakenApart graph waves) {method : MethodId} (hmethod : method ∈ graph.methods) :
    ∃ wave, waves[stepOf waves method - 1]? = some wave ∧ method ∈ wave.methods := by
  induction h with
  | done _ hnodes => simp [methods, hnodes] at hmethod
  | @wave graph rest waves hpeelable _ hrest _ ih =>
    by_cases hwave : method ∈ graph.nextWave.methods
    · exact ⟨graph.nextWave, by rw [stepOf_cons_of_mem hwave]; rfl, hwave⟩
    · rw [getElem?_stepOf_cons hwave]
      exact ih ((mem_methods_remaining hrest).2 ⟨hmethod, hwave⟩)

/-- Only calls of the graph are cut, by the wave that hands out the caller and no later than the callee. -/
theorem severed_inv (h : TakenApart graph waves) {index : Nat} {wave : Wave} (hwave : waves[index]? = some wave)
    {caller : MethodId} {callees : List MethodId} (hcut : (caller, callees) ∈ wave.severed) :
    wave.brokeCycles = true ∧ caller ∈ graph.methods ∧ stepOf waves caller = index + 1 ∧
      ∀ callee ∈ callees, callee ∈ graph.callees caller ∧ stepOf waves caller ≤ stepOf waves callee := by
  induction h generalizing index with
  | done => simp at hwave
  | @wave graph rest waves hpeelable _ hrest hlater ih =>
    cases index with
    | zero =>
      obtain rfl : graph.nextWave = wave := by simpa using hwave
      obtain ⟨hfrontier, hcaller, rfl⟩ := (mem_severed_nextWave hpeelable).1 hcut
      refine ⟨brokeCycles_nextWave.2 hfrontier, nextWave_methods_subset hpeelable hcaller,
        stepOf_cons_of_mem hcaller waves, fun callee hcallee => ⟨hcallee, ?_⟩⟩
      rw [stepOf_cons_of_mem hcaller]
      exact stepOf_pos _ callee
    | succ index =>
      rw [List.getElem?_cons_succ] at hwave
      obtain ⟨hbroke, hmethod, hstep, hcallees⟩ := ih hwave
      obtain ⟨hlive, hstays⟩ := (mem_methods_remaining hrest).1 hmethod
      refine ⟨hbroke, hlive, by rw [stepOf_cons_of_not_mem hstays, hstep], fun callee hcallee => ?_⟩
      obtain ⟨hedge, hle⟩ := hcallees callee hcallee
      rw [hpeelable.linked.callees_remaining hlater.peelable.linked hrest hstays, List.mem_filter,
        decide_eq_true_iff] at hedge
      rw [stepOf_cons_of_not_mem hstays, stepOf_cons_of_not_mem hedge.2]
      exact ⟨hedge.1, Nat.succ_le_succ hle⟩

theorem le_of_severedAt (h : TakenApart graph waves) {caller callee : MethodId}
    (hcut : SeveredAt waves caller callee) : stepOf waves caller ≤ stepOf waves callee := by
  obtain ⟨wave, callees, hwave, -, hsevered, hcallee⟩ := hcut
  exact ((h.severed_inv hwave hsevered).2.2.2 callee hcallee).2

/-- A callee comes first unless the call was cut. -/
theorem lt_or_severedAt (h : TakenApart graph waves) {caller callee : MethodId}
    (hedge : callee ∈ graph.callees caller) :
    stepOf waves callee < stepOf waves caller ∨ SeveredAt waves caller callee := by
  induction h with
  | done hpeelable hnodes =>
    have hmem := hpeelable.linked.mem_methods_of_mem_callees hedge
    simp [methods, hnodes] at hmem
  | @wave graph rest waves hpeelable _ hrest hafter ih =>
    by_cases hcaller : caller ∈ graph.nextWave.methods
    · -- a method with calls is handed out only by a wave that cuts them
      right
      have hfrontier : graph.frontier = [] := by
        by_contra hfrontier
        rw [nextWave_of_frontier hfrontier] at hcaller
        rw [(hpeelable.mem_frontier_iff.1 hcaller).2] at hedge
        exact List.not_mem_nil hedge
      refine ⟨graph.nextWave, graph.callees caller, ?_, brokeCycles_nextWave.2 hfrontier,
        (mem_severed_nextWave hpeelable).2 ⟨hfrontier, hcaller, rfl⟩, hedge⟩
      rw [stepOf_cons_of_mem hcaller]
      rfl
    · by_cases hcallee : callee ∈ graph.nextWave.methods
      · left
        have hpos := stepOf_pos waves caller
        rw [stepOf_cons_of_mem hcallee, stepOf_cons_of_not_mem hcaller]
        omega
      · have hkept : callee ∈ rest.callees caller := by
          rw [hpeelable.linked.callees_remaining hafter.peelable.linked hrest hcaller, List.mem_filter, decide_eq_true_iff]
          exact ⟨hedge, hcallee⟩
        rcases ih hkept with hlt | hcut
        · left
          rw [stepOf_cons_of_not_mem hcaller, stepOf_cons_of_not_mem hcallee]
          exact Nat.succ_lt_succ hlt
        · exact .inr (hcut.cons hcaller)

/-- A method whose calls are not cut is handed out at once if it has none, and otherwise right after one of them. -/
theorem as_early_as_possible (h : TakenApart graph waves) {method : MethodId} (hmethod : method ∈ graph.methods)
    (huncut : ∀ wave ∈ waves, ∀ callees, (method, callees) ∉ wave.severed) :
    (graph.callees method = [] ∧ stepOf waves method = 1) ∨
      ∃ callee ∈ graph.callees method, stepOf waves method = stepOf waves callee + 1 := by
  induction h with
  | done _ hnodes => simp [methods, hnodes] at hmethod
  | @wave graph rest waves hpeelable _ hrest hafter ih =>
    by_cases hwave : method ∈ graph.nextWave.methods
    · left
      have hfrontier : graph.frontier ≠ [] := fun hempty =>
        huncut _ List.mem_cons_self _ ((mem_severed_nextWave hpeelable).2 ⟨hempty, hwave, rfl⟩)
      refine ⟨?_, stepOf_cons_of_mem hwave waves⟩
      rw [nextWave_of_frontier hfrontier] at hwave
      exact (hpeelable.mem_frontier_iff.1 hwave).2
    · right
      have hcallees := hpeelable.linked.callees_remaining hafter.peelable.linked hrest hwave
      have hlater := ih ((mem_methods_remaining hrest).2 ⟨hmethod, hwave⟩)
        fun wave hmem => huncut wave (List.mem_cons_of_mem _ hmem)
      rw [stepOf_cons_of_not_mem hwave]
      rcases hlater with ⟨hnil, hstep⟩ | ⟨callee, hcallee, hstep⟩
      · -- its last calls go with this wave
        obtain ⟨callee, hcallee⟩ :=
          List.exists_mem_of_ne_nil _ (callees_ne_nil_of_not_mem_nextWave hpeelable hmethod hwave)
        refine ⟨callee, hcallee, ?_⟩
        have hgone : callee ∈ graph.nextWave.methods := by
          by_contra hstays
          rw [hcallees, List.filter_eq_nil_iff] at hnil
          exact hnil callee hcallee (decide_eq_true hstays)
        rw [stepOf_cons_of_mem hgone, hstep]
      · rw [hcallees, List.mem_filter, decide_eq_true_iff] at hcallee
        exact ⟨callee, hcallee.1, by rw [stepOf_cons_of_not_mem hcallee.2, hstep]⟩

private theorem stepOf_eq_max (h : TakenApart graph waves) {method : MethodId} (hmethod : method ∈ graph.methods)
    (huncut : ∀ wave ∈ waves, ∀ callees, (method, callees) ∉ wave.severed) :
    stepOf waves method = ((graph.callees method).map (stepOf waves)).max?.getD 0 + 1 := by
  rcases h.as_early_as_possible hmethod huncut with ⟨hnil, hstep⟩ | ⟨last, hlast, hstep⟩
  · rw [hnil, hstep]
    rfl
  · have hmax : ((graph.callees method).map (stepOf waves)).max? = some (stepOf waves last) := by
      rw [List.max?_eq_some_iff]
      refine ⟨List.mem_map_of_mem hlast, fun step hmem => ?_⟩
      obtain ⟨callee, hcallee, rfl⟩ := List.mem_map.1 hmem
      rcases h.lt_or_severedAt hcallee with hlt | ⟨wave, callees, hwave, -, hcut, -⟩
      · omega
      · exact absurd hcut (huncut wave (List.mem_of_getElem? hwave) callees)
    rw [hmax, hstep]
    rfl

end TakenApart

/-! ### Without cycles -/

theorem Acyclic.remaining {graph rest : CallGraph} (h : graph.Acyclic) (hgraph : graph.Linked) (hlinked : rest.Linked)
    {gone : List MethodId} (hrest : rest.nodes = remaining graph.nodes gone) : rest.Acyclic := by
  intro method hcycle
  refine h method (Relation.TransGen.mono (fun caller callee hedge => ?_) method method hcycle)
  have hstays := ((mem_methods_remaining hrest).1 (hlinked.mem_methods_of_mem_callees hedge)).2
  rw [hgraph.callees_remaining hlinked hrest hstays] at hedge
  exact List.mem_of_mem_filter hedge

/-- Following calls without ever returning ends at a method without calls. -/
theorem Acyclic.frontier_ne_nil {graph : CallGraph} (h : graph.Acyclic) (hpeelable : graph.Peelable)
    (hnodes : graph.nodes ≠ []) : graph.frontier ≠ [] := by
  let below : {method // method ∈ graph.methods} → {method // method ∈ graph.methods} → Prop :=
    fun callee caller => Relation.TransGen (fun caller callee => callee ∈ graph.callees caller) caller.1 callee.1
  have : Finite {method // method ∈ graph.methods} := List.finite_toSet graph.methods
  have : IsTrans _ below := ⟨fun _ _ _ hlow hhigh => Relation.TransGen.trans hhigh hlow⟩
  have : Std.Irrefl below := ⟨fun method => h method.1⟩
  obtain ⟨node, hnode⟩ := List.exists_mem_of_ne_nil _ hnodes
  obtain ⟨leaf, -, hleaf⟩ := (Finite.wellFounded_of_trans_of_irrefl below).has_min Set.univ
    ⟨⟨node.method, mem_methods.2 ⟨node, hnode, rfl⟩⟩, trivial⟩
  have hcallees : graph.callees leaf.1 = [] := by
    rw [List.eq_nil_iff_forall_not_mem]
    intro callee hcallee
    exact hleaf ⟨callee, hpeelable.linked.mem_methods_of_callee hcallee⟩ trivial (.single hcallee)
  exact List.ne_nil_of_mem (hpeelable.mem_frontier_iff.2 ⟨leaf.2, hcallees⟩)

namespace TakenApart

variable {graph : CallGraph} {waves : List Wave}

private theorem brokeCycles_eq_false (h : TakenApart graph waves) (hacyclic : graph.Acyclic) :
    ∀ wave ∈ waves, wave.brokeCycles = false := by
  induction h with
  | done => exact fun _ hwave => absurd hwave List.not_mem_nil
  | wave hpeelable hnodes hrest hafter ih =>
    rw [List.forall_mem_cons]
    refine ⟨?_, ih (hacyclic.remaining hpeelable.linked hafter.peelable.linked hrest)⟩
    rw [Bool.eq_false_iff]
    exact fun hbroke => hacyclic.frontier_ne_nil hpeelable hnodes (brokeCycles_nextWave.1 hbroke)

/-- Without cycles nothing is cut. -/
theorem not_mem_severed (h : TakenApart graph waves) (hacyclic : graph.Acyclic) {wave : Wave} (hwave : wave ∈ waves)
    (caller : MethodId) (callees : List MethodId) : (caller, callees) ∉ wave.severed := by
  intro hcut
  obtain ⟨index, hindex⟩ := List.mem_iff_getElem?.1 hwave
  have hbroke := (h.severed_inv hindex hcut).1
  rw [h.brokeCycles_eq_false hacyclic wave hwave] at hbroke
  exact Bool.false_ne_true hbroke

/-- A chain of calls is no longer than the number of the wave it starts in. -/
theorem chain_length_le (h : TakenApart graph waves) (hacyclic : graph.Acyclic) (later : List MethodId) :
    ∀ method, (method :: later).IsChain (fun caller callee => callee ∈ graph.callees caller) →
      (method :: later).length ≤ stepOf waves method := by
  induction later with
  | nil => exact fun method _ => stepOf_pos waves method
  | cons callee later ih =>
    intro method hchain
    rw [List.isChain_cons_cons] at hchain
    have hlength := ih callee hchain.2
    rcases h.lt_or_severedAt hchain.1 with hlt | ⟨wave, callees, hwave, -, hcut, -⟩
    · rw [List.length_cons]
      omega
    · exact absurd hcut (h.not_mem_severed hacyclic (List.mem_of_getElem? hwave) method callees)

/-- Some chain of calls is as long as the number of the wave it starts in. -/
theorem exists_chain (h : TakenApart graph waves) (hacyclic : graph.Acyclic) :
    ∀ step method, method ∈ graph.methods → stepOf waves method = step →
      ∃ later, (method :: later).IsChain (fun caller callee => callee ∈ graph.callees caller) ∧
        (method :: later).length = step := by
  intro step
  induction step with
  | zero =>
    intro method _ hstep
    have hpos := stepOf_pos waves method
    omega
  | succ step ih =>
    intro method hmethod hstep
    have huncut := fun wave (hwave : wave ∈ waves) => h.not_mem_severed hacyclic hwave method
    rcases h.as_early_as_possible hmethod huncut with ⟨-, hfirst⟩ | ⟨callee, hcallee, hnext⟩
    · exact ⟨[], .singleton method, by rw [← hstep, hfirst]; rfl⟩
    · obtain ⟨later, hchain, hlength⟩ := ih callee (h.peelable.linked.mem_methods_of_callee hcallee) (by omega)
      refine ⟨callee :: later, .cons_cons hcallee hchain, ?_⟩
      rw [List.length_cons, hlength]

end TakenApart

/-! ### The order in which a program's methods are handed out -/

/-- **Callees come first.** Drain the graph of a program of which no method is processed. Every method is handed out, and
for each call either the callee comes before the caller or the call was cut by the wave of the caller, which the callee
does not come before. Nothing else is cut. A method whose calls are not cut comes right after the last of its callees,
so without cycles nothing is cut, and the number of its wave is the length of the longest chain of calls from it. -/
theorem callees_handed_out_first (program : Program) (mapping : MethodMapping) (isProcessed : MethodId → Bool)
    (hfresh : ∀ method ∈ (build program mapping).methods, isProcessed method = false) :
    let graph := build program mapping
    let waves := (graph.drain isProcessed).waves
    (∀ method ∈ graph.methods, ∃ wave, waves[stepOf waves method - 1]? = some wave ∧ method ∈ wave.methods) ∧
    (∀ caller callee, callee ∈ graph.callees caller →
      Xor (stepOf waves callee < stepOf waves caller) (SeveredAt waves caller callee) ∧
        (SeveredAt waves caller callee → stepOf waves caller ≤ stepOf waves callee)) ∧
    (∀ index wave, waves[index]? = some wave → ∀ caller callees, (caller, callees) ∈ wave.severed →
      wave.brokeCycles = true ∧ stepOf waves caller = index + 1 ∧ ∀ callee ∈ callees, callee ∈ graph.callees caller) ∧
    (∀ method ∈ graph.methods, (∀ wave ∈ waves, ∀ callees, (method, callees) ∉ wave.severed) →
      stepOf waves method = ((graph.callees method).map (stepOf waves)).max?.getD 0 + 1) ∧
    (graph.Acyclic → (∀ wave ∈ waves, wave.brokeCycles = false) ∧
      ∀ method ∈ graph.methods,
        (∀ later, (method :: later).IsChain (fun caller callee => callee ∈ graph.callees caller) →
          (method :: later).length ≤ stepOf waves method) ∧
        ∃ later, (method :: later).IsChain (fun caller callee => callee ∈ graph.callees caller) ∧
          (method :: later).length = stepOf waves method) := by
  intro graph waves
  have hpeelable := Peelable.build program mapping
  have htaken : TakenApart graph waves := (drain_takenApart hpeelable hfresh).1
  refine ⟨fun method => htaken.mem_wave, ?_, ?_, fun method => htaken.stepOf_eq_max, ?_⟩
  · intro caller callee hedge
    refine ⟨?_, htaken.le_of_severedAt⟩
    rcases htaken.lt_or_severedAt hedge with hlt | hcut
    · exact .inl ⟨hlt, fun hcut => absurd (htaken.le_of_severedAt hcut) (Nat.not_le_of_lt hlt)⟩
    · exact .inr ⟨hcut, Nat.not_lt_of_le (htaken.le_of_severedAt hcut)⟩
  · intro index wave hwave caller callees hcut
    obtain ⟨hbroke, -, hstep, hcallees⟩ := htaken.severed_inv hwave hcut
    exact ⟨hbroke, hstep, fun callee hcallee => (hcallees callee hcallee).1⟩
  · intro hacyclic
    refine ⟨htaken.brokeCycles_eq_false hacyclic, fun method hmethod => ⟨fun later => ?_, ?_⟩⟩
    · exact htaken.chain_length_le hacyclic later method
    · exact htaken.exists_chain hacyclic _ method hmethod rfl

theorem callees_handed_out_first_of_mutualCalls :
    let graph := build mutualCalls .empty
    let waves := (graph.drain fun _ => false).waves
    (∀ method ∈ graph.methods, (fun _ : MethodId => false) method = false) ∧ ⟨1⟩ ∈ graph.callees ⟨0⟩ ∧
      Xor (stepOf waves ⟨1⟩ < stepOf waves ⟨0⟩) (SeveredAt waves ⟨0⟩ ⟨1⟩) := by
  have hedge : ⟨1⟩ ∈ (build mutualCalls .empty).callees ⟨0⟩ := by decide +kernel
  have horder := callees_handed_out_first mutualCalls .empty (fun _ => false) fun _ _ => rfl
  exact ⟨fun _ _ => rfl, hedge, (horder.2.1 ⟨0⟩ ⟨1⟩ hedge).1⟩

end Bytecode.CallGraph
