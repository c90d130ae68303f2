import Bytecode.Proofs.CallGraph.Construction
import Bytecode.Proofs.Program.Dispatch
/-!
# The graph records exactly the calls

What a program may call is a list of pairs, one for each call site and each method of the program that it may run. The
graph is built call by call, and at every moment it records the calls so far: an edge stands for the pairs of different
methods, once however often a pair occurs, the mark of a node for the pairs of a method with itself, and the count of a
node for the occurrences of its method as a target. A call site adds each of its targets once, so in the end the graph
records what the program may call.
-/

namespace Bytecode

namespace Program

/-- A call site of this kind that binds to `bound` may run the target. -/
def mayRun (program : Program) (kind : InvokeKind) (bound : MethodDef) (target : MethodId) : Bool :=
  target = bound.id || (kind.isDynamicDispatch && target ∈ program.dynamicTargets bound)

/-- The methods of the program that one call site may run. -/
def runnable (program : Program) (mapping : MethodMapping) (kind : InvokeKind) (reference : MethodRef) :
    List MethodId :=
  match program.resolveMethod? kind (mapping.apply reference) with
  | none => []
  | some bound => if program.isProgramMethod bound then program.programMethods.filter (program.mayRun kind bound) else []

/-- The call sites in the body of a method. -/
def callSites (program : Program) (method : MethodId) : List (InvokeKind × MethodRef) :=
  ((program.body? method).map (·.invocations)).getD []

/-- Caller and target, for each call site in a method of the program and each method that it may run. -/
def calls (program : Program) (mapping : MethodMapping) : List (MethodId × MethodId) :=
  program.programMethods.flatMap fun caller => (program.callSites caller).flatMap fun (kind, reference) =>
    (program.runnable mapping kind reference).map fun target => (caller, target)

/-! ### The targets of one call site -/

variable {program : Program}

private theorem dynamicTargets_nodup (h : program.Coherent) {bound : MethodDef}
    (hbound : bound ∈ program.ownMethods bound.holder) : (program.dynamicTargets bound).Nodup := by
  unfold dynamicTargets
  split
  · exact program.interfaceTargets_nodup bound
  · exact virtualTargets_nodup h hbound

private theorem siteTargets_nodup (h : program.Coherent) (mapping : MethodMapping) (kind : InvokeKind)
    (reference : MethodRef) : (program.siteTargets mapping kind reference).Nodup := by
  unfold siteTargets
  split
  · exact List.nodup_nil
  · next bound hbound =>
    split
    · refine List.nodup_cons.2 ⟨by simp, List.Nodup.filter _ ?_⟩
      split
      · exact dynamicTargets_nodup h (mem_ownMethods_of_resolveMethod? h hbound)
      · exact List.nodup_nil
    · exact List.nodup_nil

theorem mayRun_iff {kind : InvokeKind} {bound : MethodDef} {target : MethodId} :
    program.mayRun kind bound target = true ↔
      target = bound.id ∨ kind.isDynamicDispatch = true ∧ target ∈ program.dynamicTargets bound := by
  simp [mayRun]

theorem isProgramMethod_of_mem (h : program.Coherent) {method : MethodId} (hmethod : method ∈ program.programMethods) :
    (program.method? method).any program.isProgramMethod = true := by
  obtain ⟨type, owner, howner, hprogram, hmem⟩ := mem_programMethods.1 hmethod
  obtain ⟨definition, hfound, hholder⟩ := h.method_listed type owner howner method hmem
  simp [hfound, isProgramMethod, isProgramType, hholder, howner, hprogram]

private theorem mem_siteTargets (h : program.Coherent) {mapping : MethodMapping} {kind : InvokeKind}
    {reference : MethodRef}
    {bound : MethodDef} (hbound : program.resolveMethod? kind (mapping.apply reference) = some bound)
    (hprogram : program.isProgramMethod bound = true) {target : MethodId} :
    target ∈ program.siteTargets mapping kind reference ↔
      target ∈ program.programMethods ∧ program.mayRun kind bound target = true := by
  have htargets : target ∈ program.siteTargets mapping kind reference ↔ target = bound.id ∨
      target ∈ (if kind.isDynamicDispatch then program.dynamicTargets bound else []) ∧ target ≠ bound.id ∧
        (program.method? target).any program.isProgramMethod = true := by
    simp [siteTargets, hbound, hprogram]
  rw [mayRun_iff]
  constructor
  · intro htarget
    refine ⟨CallGraph.siteTargets_subset h mapping kind reference htarget, ?_⟩
    rcases htargets.1 htarget with heq | ⟨hmem, -, -⟩
    · exact .inl heq
    · split at hmem
      · next hdynamic => exact .inr ⟨hdynamic, hmem⟩
      · exact absurd hmem List.not_mem_nil
  · rintro ⟨hmethod, hmay⟩
    rw [htargets]
    by_cases heq : target = bound.id
    · exact .inl heq
    · obtain ⟨hdynamic, hmem⟩ := hmay.resolve_left heq
      rw [if_pos hdynamic]
      exact .inr ⟨hmem, heq, isProgramMethod_of_mem h hmethod⟩

private theorem siteTargets_perm (h : program.Coherent) (mapping : MethodMapping) (kind : InvokeKind)
    (reference : MethodRef) :
    (program.siteTargets mapping kind reference).Perm (program.runnable mapping kind reference) := by
  cases hbound : program.resolveMethod? kind (mapping.apply reference) with
  | none => simp [siteTargets, runnable, hbound]
  | some bound =>
    by_cases hprogram : program.isProgramMethod bound = true
    · have hrunnable : program.runnable mapping kind reference
          = program.programMethods.filter (program.mayRun kind bound) := by
        simp [runnable, hbound, hprogram]
      rw [hrunnable]
      refine (List.perm_ext_iff_of_nodup (siteTargets_nodup h mapping kind reference)
        (h.programMethods_nodup.filter _)).2 ?_
      intro target
      rw [mem_siteTargets h hbound hprogram, List.mem_filter]
    · simp [siteTargets, runnable, hbound, hprogram]

private theorem callTargets_eq (mapping : MethodMapping) (method : MethodId) :
    program.callTargets mapping method
      = (program.callSites method).flatMap fun (kind, reference) => program.siteTargets mapping kind reference := by
  unfold callTargets callSites
  cases program.body? method <;> rfl

end Program

namespace CallGraph

/-- The nodes record these calls and no others. -/
structure Records (nodes : List CallNode) (calls : List (MethodId × MethodId)) : Prop where
  ends : ∀ call ∈ calls, call.1 ∈ nodes.map (·.method) ∧ call.2 ∈ nodes.map (·.method)
  callees : ∀ node ∈ nodes, ∀ other, other ∈ node.callees ↔ (node.method, other) ∈ calls ∧ node.method ≠ other
  callers : ∀ node ∈ nodes, ∀ other, other ∈ node.callers ↔ (other, node.method) ∈ calls ∧ other ≠ node.method
  selfRecursive : ∀ node ∈ nodes, node.isSelfRecursive = true ↔ (node.method, node.method) ∈ calls
  invokeCount : ∀ node ∈ nodes, node.invokeCount = calls.countP (·.2 = node.method)

private theorem mem_recordCall_callees {caller callee other : MethodId} {node : CallNode} :
    other ∈ (node.recordCall caller callee).callees ↔
      other ∈ node.callees ∨ node.method = caller ∧ other = callee ∧ caller ≠ callee := by
  rw [CallNode.callees_recordCall]
  split
  · next h =>
    rw [mem_appendNew]
    tauto
  · next h => tauto

private theorem mem_recordCall_callers {caller callee other : MethodId} {node : CallNode} :
    other ∈ (node.recordCall caller callee).callers ↔
      other ∈ node.callers ∨ node.method = callee ∧ other = caller ∧ caller ≠ callee := by
  rw [CallNode.callers_recordCall]
  split
  · next h =>
    rw [mem_appendNew]
    tauto
  · next h => tauto

namespace Records

variable {nodes : List CallNode} {calls : List (MethodId × MethodId)}

theorem empty : Records [] [] := by
  constructor <;> simp

theorem perm {others : List (MethodId × MethodId)} (h : Records nodes calls) (hperm : calls.Perm others) :
    Records nodes others where
  ends := fun call hcall => h.ends call (hperm.mem_iff.2 hcall)
  callees := fun node hnode other => by rw [h.callees node hnode, hperm.mem_iff]
  callers := fun node hnode other => by rw [h.callers node hnode, hperm.mem_iff]
  selfRecursive := fun node hnode => by rw [h.selfRecursive node hnode, hperm.mem_iff]
  invokeCount := fun node hnode => by rw [h.invokeCount node hnode, hperm.countP_eq]

/-- A method that no call leads to or from so far gets a node that records nothing. -/
theorem withNode (h : Records nodes calls) (method : MethodId) (isBridge : Bool) :
    Records (withNode nodes method isBridge) calls := by
  by_cases hmethod : method ∈ nodes.map (·.method)
  · rwa [CallGraph.withNode, if_pos hmethod]
  · have hsource : ∀ other, (method, other) ∉ calls := fun other hcall => hmethod (h.ends _ hcall).1
    have htarget : ∀ other, (other, method) ∉ calls := fun other hcall => hmethod (h.ends _ hcall).2
    have hcount : calls.countP (·.2 = method) = 0 := by
      rw [List.countP_eq_zero]
      intro call hcall heq
      exact hmethod (of_decide_eq_true heq ▸ (h.ends call hcall).2)
    constructor
    · intro call hcall
      rw [mem_methods_withNode, mem_methods_withNode]
      exact ⟨.inl (h.ends call hcall).1, .inl (h.ends call hcall).2⟩
    all_goals
      rw [CallGraph.withNode, if_neg hmethod]
      intro node hnode
      rcases List.mem_append.1 hnode with hold | hnew
    · exact h.callees node hold
    · rw [List.mem_singleton.1 hnew]
      simp [hsource]
    · exact h.callers node hold
    · rw [List.mem_singleton.1 hnew]
      simp [htarget]
    · exact h.selfRecursive node hold
    · rw [List.mem_singleton.1 hnew]
      simp [hsource]
    · exact h.invokeCount node hold
    · rw [List.mem_singleton.1 hnew]
      exact hcount.symm

theorem recordCall (h : Records nodes calls) {caller callee : MethodId} (hcaller : caller ∈ nodes.map (·.method))
    (hcallee : callee ∈ nodes.map (·.method)) :
    Records (nodes.map (CallNode.recordCall caller callee)) (calls ++ [(caller, callee)]) := by
  constructor
  · intro call hcall
    rw [map_method_recordCall]
    rcases List.mem_append.1 hcall with hold | hnew
    · exact h.ends call hold
    · rw [List.mem_singleton.1 hnew]
      exact ⟨hcaller, hcallee⟩
  all_goals
    intro node hnode
    obtain ⟨before, hbefore, rfl⟩ := List.mem_map.1 hnode
  · intro other
    have hold := h.callees before hbefore other
    rw [mem_recordCall_callees, hold, List.mem_append, List.mem_singleton, Prod.mk.injEq]
    change _ ↔ ((before.method, other) ∈ calls ∨ before.method = caller ∧ other = callee) ∧ before.method ≠ other
    constructor
    · rintro (⟨hcall, hne⟩ | ⟨rfl, rfl, hne⟩)
      · exact ⟨.inl hcall, hne⟩
      · exact ⟨.inr ⟨rfl, rfl⟩, hne⟩
    · rintro ⟨hcall | ⟨rfl, rfl⟩, hne⟩
      · exact .inl ⟨hcall, hne⟩
      · exact .inr ⟨rfl, rfl, hne⟩
  · intro other
    have hold := h.callers before hbefore other
    rw [mem_recordCall_callers, hold, List.mem_append, List.mem_singleton, Prod.mk.injEq]
    change _ ↔ ((other, before.method) ∈ calls ∨ other = caller ∧ before.method = callee) ∧ other ≠ before.method
    constructor
    · rintro (⟨hcall, hne⟩ | ⟨rfl, rfl, hne⟩)
      · exact ⟨.inl hcall, hne⟩
      · exact ⟨.inr ⟨rfl, rfl⟩, hne⟩
    · rintro ⟨hcall | ⟨rfl, rfl⟩, hne⟩
      · exact .inl ⟨hcall, hne⟩
      · exact .inr ⟨rfl, rfl, hne⟩
  · have hold := h.selfRecursive before hbefore
    rw [List.mem_append, List.mem_singleton, Prod.mk.injEq]
    change (before.isSelfRecursive || (before.method = caller && caller = callee)) = true ↔
      (before.method, before.method) ∈ calls ∨ before.method = caller ∧ before.method = callee
    rw [Bool.or_eq_true, hold, Bool.and_eq_true, decide_eq_true_eq, decide_eq_true_eq]
    refine or_congr_right (and_congr_right fun heq => ?_)
    rw [heq]
  · have hold := h.invokeCount before hbefore
    rw [List.countP_append, List.countP_singleton]
    change (if before.method = callee then before.invokeCount + 1 else before.invokeCount)
      = calls.countP (·.2 = before.method) + if decide (callee = before.method) = true then 1 else 0
    rw [hold]
    by_cases heq : before.method = callee
    · simp [heq]
    · simp [heq, Ne.symm heq]

/-! ### Building -/

private theorem foldl_withCall (h : Records nodes calls) (program : Program) {method : MethodId}
    (targets : List MethodId)
    (hmethod : method ∈ nodes.map (·.method)) :
    Records (targets.foldl (withCall program method) nodes) (calls ++ targets.map fun target => (method, target)) := by
  induction targets generalizing nodes calls with
  | nil => rwa [List.map_nil, List.append_nil]
  | cons target targets ih =>
    have hnext := (h.withNode target ((program.method? target).any (·.isBridge))).recordCall
      (mem_methods_withNode.2 (.inl hmethod)) (mem_methods_withNode.2 (.inr rfl))
    have hrest := ih hnext (by rw [map_method_recordCall, mem_methods_withNode]; exact .inl hmethod)
    rwa [List.append_assoc] at hrest

theorem withMethod (h : Records nodes calls) (program : Program) (mapping : MethodMapping) (method : MethodId) :
    Records (withMethod program mapping nodes method)
      (calls ++ (program.callTargets mapping method).map fun target => (method, target)) :=
  (h.withNode method _).foldl_withCall program _ (mem_methods_withNode.2 (.inr rfl))

private theorem foldl_withMethod (h : Records nodes calls) (program : Program) (mapping : MethodMapping)
    (methods : List MethodId) :
    Records (methods.foldl (CallGraph.withMethod program mapping) nodes)
      (calls ++ methods.flatMap fun method =>
        (program.callTargets mapping method).map fun target => (method, target)) := by
  induction methods generalizing nodes calls with
  | nil => rwa [List.flatMap_nil, List.append_nil]
  | cons method methods ih =>
    rw [List.foldl_cons, List.flatMap_cons, ← List.append_assoc]
    exact ih (h.withMethod program mapping method)

/-- Call site by call site, the targets are the methods that may run. -/
theorem callTargets_perm {program : Program} (h : program.Coherent) (mapping : MethodMapping) :
    (program.programMethods.flatMap fun method =>
      (program.callTargets mapping method).map fun target => (method, target)).Perm (program.calls mapping) := by
  refine List.Perm.flatMap_left _ fun method _ => ?_
  rw [Program.callTargets_eq, List.map_flatMap]
  exact List.Perm.flatMap_left _ fun site _ => (Program.siteTargets_perm h mapping site.1 site.2).map _

theorem build {program : Program} (h : program.Coherent) (mapping : MethodMapping) :
    Records (build program mapping).nodes (program.calls mapping) := by
  rw [nodes_build]
  exact (empty.foldl_withMethod program mapping program.programMethods).perm (callTargets_perm h mapping)

end Records

/-! ### What the nodes say of the calls -/

section Build

variable {program : Program} (h : program.Coherent) (mapping : MethodMapping)
include h

theorem mem_callees_build {caller callee : MethodId} (hne : caller ≠ callee) :
    callee ∈ (build program mapping).callees caller ↔ (caller, callee) ∈ program.calls mapping := by
  have hrecords := Records.build h mapping
  have hlinked := (Peelable.build program mapping).linked
  constructor
  · intro hcallee
    obtain ⟨node, hnode, rfl⟩ := mem_methods.1 (hlinked.mem_methods_of_mem_callees hcallee)
    rw [hlinked.callees_eq hnode] at hcallee
    exact ((hrecords.callees node hnode callee).1 hcallee).1
  · intro hcall
    obtain ⟨node, hnode, rfl⟩ := mem_methods.1 (hrecords.ends _ hcall).1
    rw [hlinked.callees_eq hnode]
    exact (hrecords.callees node hnode callee).2 ⟨hcall, hne⟩

theorem mem_callers_build {caller callee : MethodId} (hne : caller ≠ callee) :
    caller ∈ (build program mapping).callers callee ↔ (caller, callee) ∈ program.calls mapping := by
  have hrecords := Records.build h mapping
  have hlinked := (Peelable.build program mapping).linked
  constructor
  · intro hcaller
    obtain ⟨node, hnode, rfl⟩ := mem_methods.1 (hlinked.mem_methods_of_mem_callers hcaller)
    rw [hlinked.callers_eq hnode] at hcaller
    exact ((hrecords.callers node hnode caller).1 hcaller).1
  · intro hcall
    obtain ⟨node, hnode, rfl⟩ := mem_methods.1 (hrecords.ends _ hcall).2
    rw [hlinked.callers_eq hnode]
    exact (hrecords.callers node hnode caller).2 ⟨hcall, hne⟩

/-- The methods that are classified as having so many call sites, if some were asked for. -/
theorem mem_methodsWithCallSites {count : Nat} (hcount : 0 < count) {method : MethodId} :
    method ∈ methodsWithCallSites program (build program mapping) count ↔
      program.liveness.isSome = true ∧ program.isPinnedMethod method = false ∧
        (program.calls mapping).countP (·.2 = method) = count := by
  have hrecords := Records.build h mapping
  unfold methodsWithCallSites
  split
  · next hlive =>
    simp only [List.mem_map, List.mem_filter, Bool.and_eq_true, decide_eq_true_eq, Bool.not_eq_true']
    constructor
    · rintro ⟨node, ⟨hnode, hinvoked, hpinned⟩, rfl⟩
      exact ⟨hlive, hpinned, (hrecords.invokeCount node hnode).symm.trans hinvoked⟩
    · rintro ⟨-, hpinned, hcalled⟩
      -- a method that is called has a node
      have hpositive : 0 < (program.calls mapping).countP (·.2 = method) := by omega
      obtain ⟨call, hcall, htarget⟩ := List.countP_pos_iff.1 hpositive
      rw [decide_eq_true_eq] at htarget
      obtain ⟨node, hnode, hmethod⟩ := mem_methods.1 (hrecords.ends call hcall).2
      rw [htarget] at hmethod
      subst hmethod
      exact ⟨node, ⟨hnode, (hrecords.invokeCount node hnode).trans hcalled, hpinned⟩, rfl⟩
  · next hlive => simp [hlive]

end Build

/-- **Exactness.** The graph of a declared program has one node for each of its methods. An edge joins two methods,
once, exactly if a call site in the first may run the second; a mark stands at exactly the methods with a call site that
may run them again; a node counts the call sites that may run its method. With the whole program known, the methods that
are not pinned are classified by that count. No call site lists a target twice. -/
theorem build_records_calls {program : Program} (h : program.Built) (mapping : MethodMapping) :
    ((build program mapping).methods.Nodup ∧ (build program mapping).methods.Perm program.programMethods) ∧
    (∀ caller callee, caller ≠ callee →
      (callee ∈ (build program mapping).callees caller ↔ (caller, callee) ∈ program.calls mapping) ∧
      (caller ∈ (build program mapping).callers callee ↔ (caller, callee) ∈ program.calls mapping)) ∧
    (∀ node ∈ (build program mapping).nodes,
      node.callees.Nodup ∧ node.callers.Nodup ∧ node.method ∉ node.callees ∧ node.method ∉ node.callers ∧
      (node.isSelfRecursive = true ↔ (node.method, node.method) ∈ program.calls mapping) ∧
      node.invokeCount = (program.calls mapping).countP (·.2 = node.method)) ∧
    (∀ method,
      ((build program mapping).hasSingleCallSite method = true ↔
        program.liveness.isSome = true ∧ program.isPinnedMethod method = false ∧
          (program.calls mapping).countP (·.2 = method) = 1) ∧
      ((build program mapping).hasDoubleCallSite method = true ↔
        program.liveness.isSome = true ∧ program.isPinnedMethod method = false ∧
          (program.calls mapping).countP (·.2 = method) = 2)) ∧
    ∀ kind reference, (program.siteTargets mapping kind reference).Nodup := by
  have hprogram := h.coherent
  have hbalanced := (Peelable.build program mapping).balanced
  have hrecords := Records.build hprogram mapping
  refine ⟨⟨hbalanced.distinct, methods_build_perm hprogram mapping⟩, ?_, ?_, ?_, ?_⟩
  · intro caller callee hne
    exact ⟨mem_callees_build hprogram mapping hne, mem_callers_build hprogram mapping hne⟩
  · intro node hnode
    exact ⟨hbalanced.callees_nodup node hnode, hbalanced.callers_nodup node hnode, hbalanced.no_self_call node hnode,
      hbalanced.no_self_caller hnode, hrecords.selfRecursive node hnode, hrecords.invokeCount node hnode⟩
  · intro method
    rw [hasSingleCallSite, hasDoubleCallSite, List.contains_iff_mem, List.contains_iff_mem]
    exact ⟨mem_methodsWithCallSites hprogram mapping Nat.one_pos, mem_methodsWithCallSites hprogram mapping Nat.two_pos⟩
  · exact Program.siteTargets_nodup hprogram mapping

/-- A class with a method that its subclass overrides and the subclass of that declares privately, and a static method
that calls it twice and then itself. The program is closed and its first method pinned. -/
def overridden : Program :=
  let upper := (({} : Program).declareClass "LA;" .program ⟨1⟩ none []).1
  let middle := (upper.declareClass "LB;" .program ⟨1⟩ (some ⟨0⟩) []).1
  let lower := (middle.declareClass "LC;" .program ⟨1⟩ (some ⟨1⟩) []).1
  let withStatic := ((lower.addMethod ⟨0⟩ "f" "()V" ⟨1⟩).1.addMethod ⟨0⟩ "run" "(LA;)V" (AccessFlags.withStatic ⟨1⟩)).1
  let withMethods := ((withStatic.addMethod ⟨1⟩ "f" "()V" ⟨1⟩).1.addMethod ⟨2⟩ "f" "()V" ⟨2⟩).1
  let call (kind : InvokeKind) (name descriptor : String) : Instruction :=
    { operation := .invoke none kind { holder := ⟨0⟩, name, descriptor } [⟨0⟩] }
  let body : Body :=
    { method := ⟨1⟩
      values := [{}]
      blocks := [{ instructions := [{ operation := .argument ⟨0⟩ 0 }, call .virtual "f" "()V", call .virtual "f" "()V",
        call .static "run" "(LA;)V", { operation := .return none }] }] }
  ((withMethods.putBody ⟨1⟩ body).closeWorld).pinMethod ⟨0⟩

theorem overridden_built : overridden.Built :=
  .pinMethod _ (.closeWorld (.putBody _ _ (.addMethod _ _ _ _ (.addMethod _ _ _ _ (.addMethod _ _ _ _
    (.addMethod _ _ _ _ (.declareClass _ _ _ _ _ (.declareClass _ _ _ _ _ (.declareClass _ _ _ _ _ .empty)))))))))

private theorem overridden_calls :
    overridden.calls .empty = [(⟨1⟩, ⟨0⟩), (⟨1⟩, ⟨2⟩), (⟨1⟩, ⟨0⟩), (⟨1⟩, ⟨2⟩), (⟨1⟩, ⟨1⟩)] := by
  decide +kernel

theorem build_records_calls_of_overridden :
    overridden.Built ∧ (⟨2⟩ : MethodId) ∈ (build overridden .empty).callees ⟨1⟩ ∧
      (build overridden .empty).hasDoubleCallSite ⟨2⟩ = true ∧
      (build overridden .empty).hasDoubleCallSite ⟨0⟩ = false ∧
      (build overridden .empty).hasSingleCallSite ⟨1⟩ = true := by
  obtain ⟨-, hedges, -, hcounts, -⟩ := build_records_calls overridden_built .empty
  rw [overridden_calls] at hedges hcounts
  refine ⟨overridden_built, ?_, ?_, ?_, ?_⟩
  · exact (hedges ⟨1⟩ ⟨2⟩ (by decide)).1.2 (by decide)
  · exact (hcounts ⟨2⟩).2.2 ⟨rfl, rfl, rfl⟩
  · rw [Bool.eq_false_iff]
    exact fun hdouble => absurd ((hcounts ⟨0⟩).2.1 hdouble).2.1 (by decide)
  · exact (hcounts ⟨1⟩).1.2 ⟨rfl, rfl, rfl⟩

end CallGraph

end Bytecode
