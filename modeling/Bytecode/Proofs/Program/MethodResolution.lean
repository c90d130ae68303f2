import Bytecode.Proofs.Program.Dispatch
/-!
# Where a method is found

A method is looked for on the superclass chain of a type first, where the nearest declaration counts. Only if no class of
that chain has one is it looked for in the interfaces above the chain, and there a declaration with code comes before an
abstract one, wherever the two are met. `Offers` states that order of precedence without any search. What is found belongs to
the type itself or to a supertype of it.

A type declares a signature by one method. If it lists several, the first of them counts and the others are never found.
-/

namespace Bytecode.Program

variable {program : Program} {name descriptor : String} {type : TypeId}

/-- The method by which a type declares a signature, which is the first that it lists with this name and descriptor. -/
def DeclaresMethod (program : Program) (name descriptor : String) (type : TypeId) (method : MethodDef) : Prop :=
  ∃ before after, program.ownMethods type = before ++ method :: after ∧
    method.reference.hasSignature name descriptor = true ∧
    ∀ earlier ∈ before, earlier.reference.hasSignature name descriptor = false

/-- The class of the lower type names the upper type among its interfaces. -/
def Implements (program : Program) (lower upper : TypeId) : Prop :=
  upper ∈ program.interfaces lower

/-- Interface links lead from the type or from one of its superclasses to the upper type. -/
def ReachesInterface (program : Program) (type upper : TypeId) : Prop :=
  ∃ lower, Relation.ReflTransGen program.Inherits type lower ∧ Relation.TransGen program.Implements lower upper

/-- Neither the type nor one of its superclasses declares the signature. -/
def SilentChain (program : Program) (name descriptor : String) (type : TypeId) : Prop :=
  ∀ upper method, Relation.ReflTransGen program.Inherits type upper →
    ¬program.DeclaresMethod name descriptor upper method

/-- What a type has to offer under a signature, in order of precedence. -/
inductive Offers (program : Program) (name descriptor : String) (type : TypeId) : Option MethodDef → Prop
  /-- The nearest declaration on the superclass chain. -/
  | inherited {method : MethodDef} :
      program.Selects (·.reference.hasSignature name descriptor) type method →
      Offers program name descriptor type (some method)
  /-- A declaration with code in an interface. -/
  | withCode {upper : TypeId} {method : MethodDef} : program.SilentChain name descriptor type →
      program.ReachesInterface type upper → program.DeclaresMethod name descriptor upper method →
      method.isAbstract = false → Offers program name descriptor type (some method)
  /-- Any declaration in an interface, as long as all of them are abstract. -/
  | withoutCode {upper : TypeId} {method : MethodDef} : program.SilentChain name descriptor type →
      (∀ other found, program.ReachesInterface type other → program.DeclaresMethod name descriptor other found →
        found.isAbstract = true) →
      program.ReachesInterface type upper → program.DeclaresMethod name descriptor upper method →
      Offers program name descriptor type (some method)
  | nothing : program.SilentChain name descriptor type →
      (∀ other found, program.ReachesInterface type other → ¬program.DeclaresMethod name descriptor other found) →
      Offers program name descriptor type none

/-! ### Declarations -/

theorem declaredMethod?_eq_some_iff {method : MethodDef} :
    program.declaredMethod? name descriptor type = some method ↔
      program.DeclaresMethod name descriptor type method := by
  rw [declaredMethod?_eq, List.find?_eq_some_iff_append]
  simp only [Bool.not_eq_true', DeclaresMethod]
  constructor
  · rintro ⟨hsignature, before, after, hsplit, hbefore⟩
    exact ⟨before, after, hsplit, hsignature, hbefore⟩
  · rintro ⟨before, after, hsplit, hsignature, hbefore⟩
    exact ⟨hsignature, before, after, hsplit, hbefore⟩

theorem DeclaresMethod.mem_ownMethods {method : MethodDef} (h : program.DeclaresMethod name descriptor type method) :
    method ∈ program.ownMethods type := by
  obtain ⟨before, after, hsplit, -⟩ := h
  rw [hsplit]
  simp

/-! ### The superclass chain -/

/-- A chain that declares the signature anywhere selects a method. -/
theorem exists_selects_of_declares {upper : TypeId} {method : MethodDef}
    (hup : Relation.ReflTransGen program.Inherits type upper)
    (hdeclares : program.DeclaresMethod name descriptor upper method) :
    ∃ nearest, program.Selects (·.reference.hasSignature name descriptor) type nearest := by
  induction hup using Relation.ReflTransGen.head_induction_on with
  | refl =>
    rw [← declaredMethod?_eq_some_iff, declaredMethod?_eq] at hdeclares
    exact ⟨method, 0, .here hdeclares⟩
  | @head lower middle hinherits _ ih =>
    cases hown : (program.ownMethods lower).find? (·.reference.hasSignature name descriptor) with
    | some nearest => exact ⟨nearest, 0, .here hown⟩
    | none =>
      obtain ⟨nearest, steps, hclimbs⟩ := ih
      exact ⟨nearest, steps + 1, .above hown hinherits hclimbs⟩

private theorem silentChain_of_findSome?_superclassChain
    (h : (program.superclassChain type).findSome? (program.declaredMethod? name descriptor) = none) :
    program.SilentChain name descriptor type := by
  intro upper method hup hdeclares
  have hnone := List.findSome?_eq_none_iff.1 h upper (mem_superclassChain_iff.2 hup)
  cases hnone.symm.trans (declaredMethod?_eq_some_iff.2 hdeclares)

private theorem selects_of_findSome?_superclassChain {method : MethodDef}
    (h : (program.superclassChain type).findSome? (program.declaredMethod? name descriptor) = some method) :
    program.Selects (·.reference.hasSignature name descriptor) type method := by
  obtain ⟨upper, hupper, hdeclared⟩ := List.exists_of_findSome?_eq_some h
  obtain ⟨nearest, hnearest⟩ :=
    exists_selects_of_declares (mem_superclassChain_iff.1 hupper) (declaredMethod?_eq_some_iff.1 hdeclared)
  rw [funext (declaredMethod?_eq name descriptor), hnearest.findSome?_superclassChain] at h
  exact Option.some.inj h ▸ hnearest

/-! ### The interfaces above it -/

theorem Implements.extends {lower upper : TypeId} (h : program.Implements lower upper) :
    program.Extends lower upper := by
  unfold Implements interfaces at h
  rw [extends_iff]
  cases hclass : program.class? lower with
  | none => simp [hclass] at h
  | some owner => exact ⟨owner, rfl, List.mem_append_right _ (by simpa [hclass] using h)⟩

private theorem mem_superinterfaces_iff {upper : TypeId} :
    upper ∈ program.superinterfaces (program.superclassChain type) ↔ program.ReachesInterface type upper := by
  have hlink : Graph.Link program.typeIds program.interfaces = program.Implements :=
    link_eq_step (fun _ _ => Iff.rfl) fun _ _ => Implements.extends
  rw [superinterfaces, Graph.mem_search_iff, hlink]
  simp only [List.mem_flatMap, mem_superclassChain_iff, ReachesInterface, Relation.TransGen.head'_iff]
  constructor
  · rintro ⟨direct, ⟨lower, hup, hdirect⟩, hpath⟩
    exact ⟨lower, hup, direct, hdirect, hpath⟩
  · rintro ⟨lower, hup, direct, hdirect, hpath⟩
    exact ⟨direct, ⟨lower, hup, hdirect⟩, hpath⟩

private theorem mem_interfaceDeclarations_iff {method : MethodDef} :
    method ∈ (program.superinterfaces (program.superclassChain type)).filterMap
        (program.declaredMethod? name descriptor) ↔
      ∃ upper, program.ReachesInterface type upper ∧ program.DeclaresMethod name descriptor upper method := by
  simp only [List.mem_filterMap, mem_superinterfaces_iff, declaredMethod?_eq_some_iff]

theorem ReachesInterface.extends {upper : TypeId} (h : program.ReachesInterface type upper) :
    Relation.ReflTransGen program.Extends type upper := by
  obtain ⟨lower, hinherits, himplements⟩ := h
  exact (extends_path_of_inherits hinherits).trans
    (himplements.to_reflTransGen.lift id fun _ _ => Implements.extends)

/-! ### What is found -/

/-- If the superclass chain is silent, the interfaces decide. -/
theorem offers_interfaceMethod? (hsilent : program.SilentChain name descriptor type) :
    program.Offers name descriptor type
      (program.interfaceMethod? name descriptor (program.superinterfaces (program.superclassChain type))) := by
  have hdeclared := @mem_interfaceDeclarations_iff program name descriptor type
  simp only [interfaceMethod?]
  generalize (program.superinterfaces (program.superclassChain type)).filterMap
    (program.declaredMethod? name descriptor) = declared at hdeclared ⊢
  cases hcode : declared.find? (!·.isAbstract) with
  | some method =>
    obtain ⟨upper, hreaches, hdeclares⟩ := hdeclared.1 (List.mem_of_find?_eq_some hcode)
    rw [Option.some_or]
    exact .withCode hsilent hreaches hdeclares (by simpa using List.find?_some hcode)
  | none =>
    have habstract : ∀ other found, program.ReachesInterface type other →
        program.DeclaresMethod name descriptor other found → found.isAbstract = true := by
      intro other found hreaches hdeclares
      simpa using List.find?_eq_none.1 hcode found (hdeclared.2 ⟨other, hreaches, hdeclares⟩)
    rw [Option.none_or]
    cases hfirst : declared.head? with
    | some method =>
      obtain ⟨upper, hreaches, hdeclares⟩ := hdeclared.1 (List.mem_of_mem_head? hfirst)
      exact .withoutCode hsilent habstract hreaches hdeclares
    | none =>
      refine .nothing hsilent fun other found hreaches hdeclares => ?_
      have hmem := hdeclared.2 ⟨other, hreaches, hdeclares⟩
      rw [List.head?_eq_none_iff.1 hfirst] at hmem
      exact List.not_mem_nil hmem

private theorem offers_lookupMethod? (program : Program) (name descriptor : String) (type : TypeId) :
    program.Offers name descriptor type (program.lookupMethod? type name descriptor) := by
  cases hchain : (program.superclassChain type).findSome? (program.declaredMethod? name descriptor) with
  | some method =>
    rw [lookupMethod?, hchain, Option.some_or]
    exact .inherited (selects_of_findSome?_superclassChain hchain)
  | none =>
    rw [lookupMethod?, hchain, Option.none_or]
    exact offers_interfaceMethod? (silentChain_of_findSome?_superclassChain hchain)

/-- What a type offers is declared by the type itself or by a type above it. -/
theorem Offers.exists_above {method : MethodDef} (h : program.Offers name descriptor type (some method)) :
    ∃ upper, Relation.ReflTransGen program.Extends type upper ∧ method ∈ program.ownMethods upper := by
  cases h with
  | inherited hselects =>
    obtain ⟨upper, hupper, hfound⟩ := List.exists_of_findSome?_eq_some hselects.findSome?_superclassChain
    exact ⟨upper, extends_path_of_inherits (mem_superclassChain_iff.1 hupper), List.mem_of_find?_eq_some hfound⟩
  | withCode _ hreaches hdeclares _ | withoutCode _ _ hreaches hdeclares =>
    exact ⟨_, hreaches.extends, hdeclares.mem_ownMethods⟩

private theorem resolveMethod?_eq_some_iff {kind : InvokeKind} {reference : MethodRef} {method : MethodDef} :
    program.resolveMethod? kind reference = some method ↔
      program.lookupMethod? reference.holder reference.name reference.descriptor = some method ∧
        (method.isStatic = true ↔ kind = .static) := by
  rw [resolveMethod?, Option.filter_eq_some_iff, beq_iff_eq, Bool.eq_iff_iff, beq_iff_eq]

/-- **Resolving a method.** The lookup finds what the holder of the reference offers: the nearest declaration on its
superclass chain, else one in an interface above that chain, with code if there is such a one. The reference binds to that
method if it is static exactly when the call is, and to nothing otherwise. What it binds to belongs to the holder or to a
supertype of it. -/
theorem method_resolution_by_precedence (h : program.Built) (kind : InvokeKind) (reference : MethodRef) :
    program.Offers reference.name reference.descriptor reference.holder
        (program.lookupMethod? reference.holder reference.name reference.descriptor) ∧
      (∀ method, program.resolveMethod? kind reference = some method ↔
        program.lookupMethod? reference.holder reference.name reference.descriptor = some method ∧
          (method.isStatic = true ↔ kind = .static)) ∧
      ∀ method, program.resolveMethod? kind reference = some method →
        program.isSubtype reference.holder method.holder = true := by
  have hoffers := program.offers_lookupMethod? reference.name reference.descriptor reference.holder
  refine ⟨hoffers, fun _ => resolveMethod?_eq_some_iff, fun method hresolved => ?_⟩
  rw [(resolveMethod?_eq_some_iff.1 hresolved).1] at hoffers
  obtain ⟨upper, hup, hmember⟩ := hoffers.exists_above
  rw [(h.coherent.ownMethods_spec hmember).1, isSubtype_iff]
  exact hup

/-- A class with an interface whose method is abstract. Its superclass extends a type without a definition and has another
interface, and that one and a third, which declares the method with code, extend each other. -/
def codeBehindAbstract : Program :=
  let near := (({} : Program).declareClass "LI;" .program ⟨0x601⟩ none []).1
  let middle := (near.declareClass "LJ;" .program ⟨0x601⟩ none [⟨2⟩]).1
  let far := (middle.declareClass "LK;" .program ⟨0x601⟩ none [⟨1⟩]).1
  let upper := (far.declareClass "LB;" .program ⟨1⟩ (some ⟨5⟩) [⟨1⟩]).1
  let lower := (upper.declareClass "LC;" .program ⟨1⟩ (some ⟨3⟩) [⟨0⟩]).1
  let named := (lower.typeRef "LA;").1
  ((named.addMethod ⟨0⟩ "m" "()V" ⟨0x401⟩).1.addMethod ⟨2⟩ "m" "()V" ⟨1⟩).1

private theorem codeBehindAbstract_built : codeBehindAbstract.Built :=
  .addMethod _ _ _ _ (.addMethod _ _ _ _ (.typeRef _ (.declareClass _ _ _ _ _ (.declareClass _ _ _ _ _
    (.declareClass _ _ _ _ _ (.declareClass _ _ _ _ _ (.declareClass _ _ _ _ _ .empty)))))))

/-- The abstract method is met first and the one with code is found. -/
theorem method_resolution_of_codeBehindAbstract :
    let reference : MethodRef := { holder := ⟨4⟩, name := "m", descriptor := "()V" }
    let method : MethodDef := { id := ⟨1⟩, reference := { reference with holder := ⟨2⟩ }, flags := ⟨1⟩ }
    codeBehindAbstract.superinterfaces (codeBehindAbstract.superclassChain ⟨4⟩) = [⟨0⟩, ⟨1⟩, ⟨2⟩] ∧
      codeBehindAbstract.resolveMethod? .virtual reference = some method ∧
      codeBehindAbstract.Offers "m" "()V" ⟨4⟩ (some method) ∧ codeBehindAbstract.isSubtype ⟨4⟩ ⟨2⟩ = true := by
  intro reference method
  have hresolved : codeBehindAbstract.resolveMethod? .virtual reference = some method := by decide +kernel
  obtain ⟨hoffers, hbinds, hholder⟩ :=
    method_resolution_by_precedence codeBehindAbstract_built .virtual reference
  rw [((hbinds method).1 hresolved).1] at hoffers
  exact ⟨by decide +kernel, hresolved, hoffers, hholder method hresolved⟩

/-- A class without methods and its interface, which lists one signature twice, first without code and then with it. -/
def listedTwice : Program :=
  let upper := (({} : Program).declareClass "LI;" .program ⟨0x601⟩ none []).1
  let lower := (upper.declareClass "LC;" .program ⟨1⟩ none [⟨0⟩]).1
  ((lower.addMethod ⟨0⟩ "m" "()V" ⟨0x401⟩).1.addMethod ⟨0⟩ "m" "()V" ⟨1⟩).1

/-- The first of two methods with one signature hides the second, even if only the second has code. -/
theorem abstract_method_hides_later_code :
    let reference : MethodRef := { holder := ⟨0⟩, name := "m", descriptor := "()V" }
    let code : MethodDef := { id := ⟨1⟩, reference, flags := ⟨1⟩ }
    listedTwice.Built ∧ listedTwice.SilentChain "m" "()V" ⟨1⟩ ∧ listedTwice.ReachesInterface ⟨1⟩ ⟨0⟩ ∧
      code ∈ listedTwice.ownMethods ⟨0⟩ ∧ code.reference.hasSignature "m" "()V" = true ∧ code.isAbstract = false ∧
      (listedTwice.lookupMethod? ⟨1⟩ "m" "()V").map (·.isAbstract) = some true ∧
      (listedTwice.resolveMethod? .virtual { reference with holder := ⟨1⟩ }).map (·.id) = some ⟨0⟩ := by
  intro reference code
  have himplements : listedTwice.Implements ⟨1⟩ ⟨0⟩ := List.mem_singleton_self _
  refine ⟨.addMethod _ _ _ _ (.addMethod _ _ _ _ (.declareClass _ _ _ _ _ (.declareClass _ _ _ _ _ .empty))),
    silentChain_of_findSome?_superclassChain (by decide +kernel), ⟨⟨1⟩, .refl, .single himplements⟩, by decide, by decide,
    by decide, by decide +kernel, by decide +kernel⟩

end Bytecode.Program
