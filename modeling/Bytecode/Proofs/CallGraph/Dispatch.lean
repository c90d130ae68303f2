import Bytecode.Proofs.CallGraph.Exactness
/-!
# Dynamic dispatch in the call graph

Whatever a class below the bound method's holder selects at run time should be a call that the graph has. For a method of
a class this is so: the first method up the superclass chain that has the signature and takes part in dispatch is a
target of the call site, through all private, static and abstract methods and whatever cycles and undefined types the
hierarchy has.

For a method of an interface it is so unless a method that takes no part in dispatch stands in the way. The class is
asked for its first declaration of the signature; if that one takes no part, the class contributes nothing, although at
run time a method further up would be called.
-/

namespace Bytecode

/-- A call site with dynamic dispatch in a method of the program, which binds to a method of the program. -/
structure Program.DynamicSite (program : Program) (mapping : MethodMapping) (caller : MethodId) (kind : InvokeKind)
    (reference : MethodRef) (bound : MethodDef) : Prop where
  caller_mem : caller ∈ program.programMethods
  site_mem : (kind, reference) ∈ program.callSites caller
  dynamic : kind.isDynamicDispatch = true
  binds : program.resolveMethod? kind (mapping.apply reference) = some bound
  own : program.isProgramMethod bound = true

namespace CallGraph

/-- The graph has an edge between the methods or, if they are the same, the mark for a call to itself. -/
def HasCall (graph : CallGraph) (caller callee : MethodId) : Prop :=
  callee ∈ graph.callees caller ∧ caller ∈ graph.callers callee ∨
    caller = callee ∧ (graph.node? caller).any (·.isSelfRecursive) = true

instance (graph : CallGraph) (caller callee : MethodId) : Decidable (graph.HasCall caller callee) :=
  inferInstanceAs (Decidable (_ ∨ _))

variable {program : Program} {mapping : MethodMapping}

private theorem hasCall_build (h : program.Coherent) {caller callee : MethodId}
    (hcall : (caller, callee) ∈ program.calls mapping) : (build program mapping).HasCall caller callee := by
  by_cases heq : caller = callee
  · subst heq
    have hrecords := Records.build h mapping
    obtain ⟨node, hnode, rfl⟩ := mem_methods.1 (hrecords.ends _ hcall).1
    refine .inr ⟨rfl, ?_⟩
    rw [(Peelable.build program mapping).linked.node?_eq_some hnode, Option.any_some]
    exact (hrecords.selfRecursive node hnode).2 hcall
  · exact .inl ⟨(mem_callees_build h mapping heq).2 hcall, (mem_callers_build h mapping heq).2 hcall⟩

/-- A selected method of the program that the call site may run is called. -/
theorem hasCall_of_mayRun (h : program.Coherent) {caller : MethodId} {kind : InvokeKind} {reference : MethodRef}
    {bound target : MethodDef} (hsite : program.DynamicSite mapping caller kind reference bound)
    {accept : MethodDef → Bool} {type : TypeId} (hselects : program.Selects accept type target)
    (hown : program.isProgramMethod target = true) (hmay : program.mayRun kind bound target.id = true) :
    (build program mapping).HasCall caller target.id := by
  obtain ⟨upper, hupper, -⟩ := hselects.exists_own
  have htarget : target.id ∈ program.programMethods := (h.listed_of_ownMethods hupper).mem_programMethods hown
  apply hasCall_build h
  refine List.mem_flatMap.2 ⟨caller, hsite.caller_mem, List.mem_flatMap.2 ⟨(kind, reference), hsite.site_mem, ?_⟩⟩
  simp [Program.runnable, hsite.binds, hsite.own, htarget, hmay]

/-- **Class dispatch.** If a dynamic call binds to a method of a class and the chain of some class passes that class,
then the graph has the call of what that chain selects. -/
theorem class_dispatch_recorded (h : program.Built) (hdistinct : program.DistinctSignatures) {caller : MethodId}
    {kind : InvokeKind} {reference : MethodRef} {bound : MethodDef}
    (hsite : program.DynamicSite mapping caller kind reference bound) (hvirtual : bound.isVirtual = true)
    (hholder : (program.class? bound.holder).any (·.isInterface) = false) {type : TypeId}
    (hpasses : Relation.ReflTransGen program.Inherits type bound.holder) {target : MethodDef}
    (hselects : program.Selects (Program.answersTo bound) type target) (hcode : target.isAbstract = false)
    (hown : program.isProgramMethod target = true) : (build program mapping).HasCall caller target.id := by
  have hbound := Program.mem_ownMethods_of_resolveMethod? h.coherent hsite.binds
  apply hasCall_of_mayRun h.coherent hsite hselects hown
  rw [Program.mayRun_iff]
  rcases hselects.mem_virtualTargets h.classesNamed hdistinct hbound hvirtual hholder hpasses hcode with heq | hmem
  · exact .inl (congrArg MethodDef.id heq)
  · refine .inr ⟨hsite.dynamic, ?_⟩
    rwa [Program.dynamicTargets, if_neg (by rw [hholder]; exact Bool.false_ne_true)]

/-- The method of the uppermost class in `overridden`. -/
def overriddenMethod : MethodDef :=
  { id := ⟨0⟩, reference := { holder := ⟨0⟩, name := "f", descriptor := "()V" }, flags := ⟨1⟩ }

/-- The method of the class between in `overridden`. -/
def overridingMethod : MethodDef :=
  { id := ⟨2⟩, reference := { holder := ⟨1⟩, name := "f", descriptor := "()V" }, flags := ⟨1⟩ }

/-- The lowest class of the sample declares the method privately, so it selects the one of the class between. -/
theorem class_dispatch_recorded_of_overridden :
    overridden.DistinctSignatures ∧
      overridden.DynamicSite .empty ⟨1⟩ .virtual overriddenMethod.reference overriddenMethod ∧
      Relation.ReflTransGen overridden.Inherits ⟨2⟩ overriddenMethod.holder ∧
      overridden.Selects (Program.answersTo overriddenMethod) ⟨2⟩ overridingMethod ∧
      (build overridden .empty).HasCall ⟨1⟩ overridingMethod.id := by
  have hdistinct : overridden.DistinctSignatures := by decide
  have hsite : overridden.DynamicSite .empty ⟨1⟩ .virtual overriddenMethod.reference overriddenMethod :=
    ⟨by decide, by decide, rfl, by decide +kernel, by decide⟩
  have hpasses : Relation.ReflTransGen overridden.Inherits ⟨2⟩ overriddenMethod.holder := .tail (.single rfl) rfl
  have hselects : overridden.Selects (Program.answersTo overriddenMethod) ⟨2⟩ overridingMethod :=
    ⟨1, .above (by decide) rfl (.here (by decide))⟩
  exact ⟨hdistinct, hsite, hpasses, hselects, class_dispatch_recorded overridden_built hdistinct hsite (by decide)
    (by decide) hpasses hselects (by decide) (by decide)⟩

/-- **Interface dispatch.** If a dynamic call binds to a method of an interface and a class below it selects a method
with code, then the graph has the call of that method if it is the class's first declaration of the signature at all.
If another declaration comes first, the class contributes nothing. -/
theorem interface_dispatch_recorded (h : program.Built) {caller : MethodId} {kind : InvokeKind}
    {reference : MethodRef} {bound : MethodDef} (hsite : program.DynamicSite mapping caller kind reference bound)
    (hholder : (program.class? bound.holder).any (·.isInterface) = true) {type : TypeId} {owner : ClassDef}
    (howner : program.class? type = some owner) (hclass : owner.isInterface = false)
    (hbelow : type ∈ program.subtypes bound.holder) {target : MethodDef}
    (hselects : program.Selects (Program.answersTo bound) type target) (hcode : target.isAbstract = false)
    (hown : program.isProgramMethod target = true) :
    (program.Selects (Program.sameSignature bound) type target →
      (build program mapping).HasCall caller target.id) ∧
    (¬ program.Selects (Program.sameSignature bound) type target → program.interfaceTarget? bound type = none) := by
  constructor
  · intro hfirst
    apply hasCall_of_mayRun h.coherent hsite hselects hown
    obtain ⟨-, -, hanswers⟩ := hselects.exists_own
    have hvirtual : target.isVirtual = true := (Program.answersTo_iff.1 hanswers).2
    have htarget : program.interfaceTarget? bound type = some target := by
      rw [hfirst.interfaceTarget?_eq howner hclass]
      simp [Program.isDispatchTarget, hvirtual, hcode]
    rw [Program.mayRun_iff, Program.dynamicTargets, if_pos hholder]
    exact .inr ⟨hsite.dynamic, Program.mem_interfaceTargets hbelow htarget⟩
  · intro hhidden
    obtain ⟨first, hfirst⟩ := hselects.exists_sameSignature
    -- a first declaration that took part in dispatch would be the selected method
    have hvirtual : first.isVirtual = false := by
      rw [Bool.eq_false_iff]
      intro hvirtual
      rw [(hfirst.answersTo_of_isVirtual hvirtual).unique hselects] at hfirst
      exact hhidden hfirst
    rw [hfirst.interfaceTarget?_eq howner hclass]
    simp [Program.isDispatchTarget, hvirtual]

/-- An interface with an abstract method, a class with a method of that signature and without the interface, and a
subclass of it that has the interface. A static method calls the method of the interface. -/
def throughInterface : Program :=
  let upper := (({} : Program).declareClass "LI;" .program ⟨0x601⟩ none []).1
  let middle := (upper.declareClass "LB;" .program ⟨1⟩ none []).1
  let lower := (middle.declareClass "LC;" .program ⟨1⟩ (some ⟨1⟩) [⟨0⟩]).1
  let withMethods := (((lower.addMethod ⟨0⟩ "m" "()V" ⟨0x401⟩).1.addMethod ⟨1⟩ "m" "()V" ⟨1⟩).1.addMethod ⟨1⟩
    "run" "(LI;)V" (AccessFlags.withStatic ⟨1⟩)).1
  withMethods.putBody ⟨2⟩
    { method := ⟨2⟩
      values := [{}]
      blocks := [{ instructions := [{ operation := .argument ⟨0⟩ 0 },
        { operation := .invoke none .interface { holder := ⟨0⟩, name := "m", descriptor := "()V" } [⟨0⟩] },
        { operation := .return none }] }] }

private theorem throughInterface_built : throughInterface.Built :=
  .putBody _ _ (.addMethod _ _ _ _ (.addMethod _ _ _ _ (.addMethod _ _ _ _ (.declareClass _ _ _ _ _
    (.declareClass _ _ _ _ _ (.declareClass _ _ _ _ _ .empty))))))

/-- The method of the interface in `throughInterface`. -/
def interfaceMethod : MethodDef :=
  { id := ⟨0⟩, reference := { holder := ⟨0⟩, name := "m", descriptor := "()V" }, flags := ⟨0x401⟩ }

/-- The method of the class without the interface in `throughInterface`. -/
def inheritedMethod : MethodDef :=
  { id := ⟨1⟩, reference := { holder := ⟨1⟩, name := "m", descriptor := "()V" }, flags := ⟨1⟩ }

theorem interface_dispatch_recorded_of_throughInterface :
    throughInterface.DynamicSite .empty ⟨2⟩ .interface interfaceMethod.reference interfaceMethod ∧
      ⟨2⟩ ∈ throughInterface.subtypes interfaceMethod.holder ∧
      throughInterface.Selects (Program.answersTo interfaceMethod) ⟨2⟩ inheritedMethod ∧
      (build throughInterface .empty).HasCall ⟨2⟩ inheritedMethod.id := by
  have hsite : throughInterface.DynamicSite .empty ⟨2⟩ .interface interfaceMethod.reference interfaceMethod :=
    ⟨by decide, by decide, rfl, by decide +kernel, by decide⟩
  have hbelow : ⟨2⟩ ∈ throughInterface.subtypes interfaceMethod.holder := by decide +kernel
  have hselects : throughInterface.Selects (Program.answersTo interfaceMethod) ⟨2⟩ inheritedMethod :=
    ⟨1, .above (by decide) rfl (.here (by decide))⟩
  have hfirst : throughInterface.Selects (Program.sameSignature interfaceMethod) ⟨2⟩ inheritedMethod :=
    ⟨1, .above (by decide) rfl (.here (by decide))⟩
  exact ⟨hsite, hbelow, hselects,
    (interface_dispatch_recorded throughInterface_built hsite (by decide) rfl (by decide) hbelow hselects (by decide)
      (by decide)).1 hfirst⟩

/-- If the subclass declares a private method of the signature, it still inherits the implementation and selects it, but
the graph has no call of it. -/
theorem private_method_hides_implementation :
    let hidden := (throughInterface.addMethod ⟨2⟩ "m" "()V" ⟨2⟩).1
    hidden.Built ∧ hidden.DistinctSignatures ∧
      hidden.DynamicSite .empty ⟨2⟩ .interface interfaceMethod.reference interfaceMethod ∧
      (hidden.class? interfaceMethod.holder).any (·.isInterface) = true ∧
      (hidden.class? ⟨2⟩).any (·.isInterface) = false ∧ ⟨2⟩ ∈ hidden.subtypes interfaceMethod.holder ∧
      hidden.Selects (Program.answersTo interfaceMethod) ⟨2⟩ inheritedMethod ∧
      inheritedMethod.isAbstract = false ∧ hidden.isProgramMethod inheritedMethod = true ∧
      ¬ (build hidden .empty).HasCall ⟨2⟩ inheritedMethod.id := by
  intro hidden
  refine ⟨.addMethod _ _ _ _ throughInterface_built, by decide, ⟨by decide, by decide, rfl, by decide +kernel,
    by decide⟩, rfl, rfl, by decide +kernel, ⟨1, .above (by decide) rfl (.here (by decide))⟩, rfl, rfl, ?_⟩
  decide +kernel

end CallGraph

end Bytecode
