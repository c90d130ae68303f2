import Bytecode.CallGraph.Construction
import Bytecode.Proofs.Program.Hierarchy
/-!
# What a dynamic call can run

A class selects a method by going up: it takes the first one on its superclass chain that is accepted. The targets of a
dynamic call are found the other way, by going down from the class that holds the bound method. If no class declares one
signature twice, a class below that holder which selects by signature and by taking part in dispatch selects a target.

Below an interface the class is asked for its first declaration of the signature, and whether that one takes part in
dispatch is looked at afterwards. So a declaration that takes no part hides the ones above it.

However a dynamic call was bound, each of its targets is listed once.
-/

namespace Bytecode.Program

variable {program : Program}

/-- The methods that a type declares itself. -/
def ownMethods (program : Program) (type : TypeId) : List MethodDef :=
  ((program.class? type).map program.methodsOf).getD []

/-- No class declares two methods of one name and descriptor. -/
def DistinctSignatures (program : Program) : Prop :=
  ∀ owner ∈ program.classes,
    ((program.methodsOf owner).map fun method => (method.reference.name, method.reference.descriptor)).Nodup

instance (program : Program) : Decidable program.DistinctSignatures :=
  inferInstanceAs (Decidable (∀ owner ∈ program.classes, _))

/-- The first accepted method on the superclass chain of a type, from the type upwards. -/
def Selects (program : Program) (accept : MethodDef → Bool) (type : TypeId) (method : MethodDef) : Prop :=
  ∃ steps, Graph.Climbs program.superclass? (fun upper => (program.ownMethods upper).find? accept) steps type method

/-- Same name and descriptor. -/
def sameSignature (bound method : MethodDef) : Bool :=
  method.reference.hasSignature bound.reference.name bound.reference.descriptor

/-- Same name and descriptor, and takes part in dynamic dispatch. -/
def answersTo (bound method : MethodDef) : Bool :=
  sameSignature bound method && method.isVirtual

/-! ### Own methods -/

theorem declaredMethod?_eq (name descriptor : String) (type : TypeId) :
    program.declaredMethod? name descriptor type
      = (program.ownMethods type).find? (·.reference.hasSignature name descriptor) := by
  unfold declaredMethod? ownMethods
  cases program.class? type <;> rfl

theorem mem_ownMethods {type : TypeId} {method : MethodDef} :
    method ∈ program.ownMethods type ↔
      ∃ owner, program.class? type = some owner ∧ method ∈ program.methodsOf owner := by
  unfold ownMethods
  cases program.class? type <;> simp

theorem Coherent.ownMethods_spec (h : program.Coherent) {type : TypeId} {method : MethodDef}
    (hmethod : method ∈ program.ownMethods type) :
    method.holder = type ∧ program.method? method.id = some method := by
  obtain ⟨owner, howner, hmem⟩ := mem_ownMethods.1 hmethod
  obtain ⟨id, hid, hfound⟩ := List.mem_filterMap.1 hmem
  obtain ⟨same, hsame, hholder⟩ := h.method_listed type owner howner id hid
  obtain rfl : same = method := Option.some.inj (hsame.symm.trans hfound)
  exact ⟨hholder, by rwa [h.method_id id same hsame]⟩

theorem Coherent.listed_of_ownMethods (h : program.Coherent) {type : TypeId} {method : MethodDef}
    (hmethod : method ∈ program.ownMethods type) : program.Listed method := by
  obtain ⟨owner, howner, hmem⟩ := mem_ownMethods.1 hmethod
  obtain ⟨id, hid, hfound⟩ := List.mem_filterMap.1 hmem
  refine ⟨owner, by rwa [(h.ownMethods_spec hmethod).1], ?_⟩
  rwa [h.method_id id method hfound]

theorem mem_ownMethods_of_resolveMethod? (h : program.Coherent) {kind : InvokeKind} {reference : MethodRef}
    {bound : MethodDef} (hbound : program.resolveMethod? kind reference = some bound) :
    bound ∈ program.ownMethods bound.holder := by
  obtain ⟨type, hdeclared⟩ := exists_declaredMethod?_of_lookupMethod? (Option.filter_eq_some_iff.1 hbound).1
  rw [declaredMethod?_eq] at hdeclared
  have hmem := List.mem_of_find?_eq_some hdeclared
  rwa [(h.ownMethods_spec hmem).1]

theorem sameSignature_iff {bound method : MethodDef} :
    sameSignature bound method = true ↔
      method.reference.name = bound.reference.name ∧ method.reference.descriptor = bound.reference.descriptor := by
  simp [sameSignature, MethodRef.hasSignature]

theorem answersTo_iff {bound method : MethodDef} :
    answersTo bound method = true ↔ sameSignature bound method = true ∧ method.isVirtual = true :=
  Bool.and_eq_true_iff

theorem DistinctSignatures.eq_of_sameSignature (h : program.DistinctSignatures) {type : TypeId}
    {left right : MethodDef} (hleft : left ∈ program.ownMethods type) (hright : right ∈ program.ownMethods type)
    (hsame : sameSignature left right = true) : left = right := by
  obtain ⟨owner, howner, hmem⟩ := mem_ownMethods.1 hleft
  obtain ⟨_, howner', hmem'⟩ := mem_ownMethods.1 hright
  obtain rfl := Option.some.inj (howner.symm.trans howner')
  obtain ⟨hname, hdescriptor⟩ := sameSignature_iff.1 hsame
  exact List.inj_on_of_nodup_map (h owner (mem_classes.2 ⟨type, howner⟩)) hmem hmem'
    (Prod.ext hname.symm hdescriptor.symm)

/-! ### Selecting -/

/-- What is selected is what looking through the superclass chain finds. -/
theorem Selects.findSome?_superclassChain {accept : MethodDef → Bool} {type : TypeId} {target : MethodDef}
    (h : program.Selects accept type target) :
    (program.superclassChain type).findSome? (fun upper => (program.ownMethods upper).find? accept) = some target := by
  obtain ⟨steps, h⟩ := h
  exact h.findSome?_search fun _ _ => mem_typeIds_of_superclass?

theorem Selects.unique {accept : MethodDef → Bool} {type : TypeId} {left right : MethodDef}
    (hleft : program.Selects accept type left) (hright : program.Selects accept type right) : left = right :=
  Option.some.inj (hleft.findSome?_superclassChain.symm.trans hright.findSome?_superclassChain)

theorem Selects.exists_own {accept : MethodDef → Bool} {type : TypeId} {target : MethodDef}
    (h : program.Selects accept type target) : ∃ upper, target ∈ program.ownMethods upper ∧ accept target = true := by
  obtain ⟨upper, -, hfound⟩ := List.exists_of_findSome?_eq_some h.findSome?_superclassChain
  exact ⟨upper, List.mem_of_find?_eq_some hfound, List.find?_some hfound⟩

/-- The chain of a class that passes an accepted method selects no later than there. -/
theorem Selects.below {accept : MethodDef → Bool} {type holder : TypeId} {bound target : MethodDef}
    (h : program.Selects accept type target) (hpasses : Relation.ReflTransGen program.Inherits type holder)
    (hbound : bound ∈ program.ownMethods holder) (haccept : accept bound = true) :
    ∃ lower, target ∈ program.ownMethods lower ∧ accept target = true ∧
      Relation.ReflTransGen program.Inherits lower holder := by
  obtain ⟨steps, h⟩ := h
  induction h with
  | here hfound => exact ⟨_, List.mem_of_find?_eq_some hfound, List.find?_some hfound, hpasses⟩
  | above hnone hnext _ ih =>
    rcases hpasses.cases_head with rfl | ⟨upper, hupper, hrest⟩
    · exact absurd haccept (List.find?_eq_none.1 hnone bound hbound)
    · obtain rfl := Option.some.inj (hnext.symm.trans hupper)
      exact ih hrest

theorem Selects.exists_sameSignature {bound target : MethodDef} {type : TypeId}
    (h : program.Selects (answersTo bound) type target) : ∃ first, program.Selects (sameSignature bound) type first := by
  obtain ⟨steps, h⟩ := h
  induction h with
  | @here node target hfound =>
    have hsome : ((program.ownMethods node).find? (sameSignature bound)).isSome = true := by
      rw [List.find?_isSome]
      exact ⟨target, List.mem_of_find?_eq_some hfound, (answersTo_iff.1 (List.find?_some hfound)).1⟩
    obtain ⟨first, hfirst⟩ := Option.isSome_iff_exists.1 hsome
    exact ⟨first, 0, .here hfirst⟩
  | @above _ node upper target _ hnext _ ih =>
    cases hown : (program.ownMethods node).find? (sameSignature bound) with
    | some first => exact ⟨first, 0, .here hown⟩
    | none =>
      obtain ⟨first, steps, hclimbs⟩ := ih
      exact ⟨first, steps + 1, .above hown hnext hclimbs⟩

/-- If the first declaration of the signature takes part in dispatch, it is what is selected. -/
theorem Selects.answersTo_of_isVirtual {bound first : MethodDef} {type : TypeId}
    (h : program.Selects (sameSignature bound) type first) (hvirtual : first.isVirtual = true) :
    program.Selects (answersTo bound) type first := by
  obtain ⟨steps, h⟩ := h
  refine ⟨steps, ?_⟩
  induction h with
  | here hfound =>
    obtain ⟨hsame, before, after, hsplit, hbefore⟩ := List.find?_eq_some_iff_append.1 hfound
    refine .here (List.find?_eq_some_iff_append.2 ⟨?_, before, after, hsplit, ?_⟩)
    · exact answersTo_iff.2 ⟨hsame, hvirtual⟩
    · intro method hmethod
      have hother := hbefore method hmethod
      rw [Bool.not_eq_true'] at hother ⊢
      rw [answersTo, hother, Bool.false_and]
  | above hnone hnext _ ih =>
    refine .above ?_ hnext (ih hvirtual)
    rw [List.find?_eq_none] at hnone ⊢
    intro method hmethod hanswers
    exact hnone method hmethod (answersTo_iff.1 hanswers).1

/-! ### Selected methods are targets -/

private theorem declaredMethod?_eq_some (h : program.DistinctSignatures) {bound method : MethodDef} {type : TypeId}
    (hmethod : method ∈ program.ownMethods type) (hsame : sameSignature bound method = true) :
    program.declaredMethod? bound.reference.name bound.reference.descriptor type = some method := by
  rw [declaredMethod?_eq]
  change (program.ownMethods type).find? (sameSignature bound) = some method
  cases hfound : (program.ownMethods type).find? (sameSignature bound) with
  | none => exact absurd hsame (List.find?_eq_none.1 hfound method hmethod)
  | some found =>
    obtain ⟨hname, hdescriptor⟩ := sameSignature_iff.1 (List.find?_some hfound)
    obtain ⟨hname', hdescriptor'⟩ := sameSignature_iff.1 hsame
    have hagree : sameSignature found method = true :=
      sameSignature_iff.2 ⟨hname'.trans hname.symm, hdescriptor'.trans hdescriptor.symm⟩
    rw [h.eq_of_sameSignature (List.mem_of_find?_eq_some hfound) hmethod hagree]

/-- Below a class, what takes part in dispatch and is selected first is the bound method or another target. -/
theorem Selects.mem_virtualTargets (hnamed : program.ClassesNamed)
    (hdistinct : program.DistinctSignatures) {bound target : MethodDef} {type : TypeId}
    (h : program.Selects (answersTo bound) type target)
    (hbound : bound ∈ program.ownMethods bound.holder) (hvirtual : bound.isVirtual = true)
    (hclass : (program.class? bound.holder).any (·.isInterface) = false)
    (hpasses : Relation.ReflTransGen program.Inherits type bound.holder) (hcode : target.isAbstract = false) :
    target = bound ∨ target.id ∈ program.virtualTargets bound := by
  have hself : answersTo bound bound = true := by simp [answersTo_iff, sameSignature_iff, hvirtual]
  obtain ⟨lower, htarget, hanswers, hup⟩ := h.below hpasses hbound hself
  obtain ⟨hsame, hdispatch⟩ := answersTo_iff.1 hanswers
  by_cases hlower : lower = bound.holder
  · subst hlower
    exact .inl (hdistinct.eq_of_sameSignature hbound htarget hsame).symm
  · have hlisted : bound.holder ∈ program.typeIds := by
      obtain ⟨owner, howner, -⟩ := mem_ownMethods.1 hbound
      exact mem_typeIds_of_class? howner
    have hsubtype : lower ∈ program.subtypes bound.holder :=
      (mem_subtypes_iff hnamed hlisted).2 ⟨hlower, extends_path_of_inherits hup⟩
    have hfound : (program.declaredMethod? bound.reference.name bound.reference.descriptor lower).filter
        isDispatchTarget = some target := by
      rw [declaredMethod?_eq_some hdistinct htarget hsame]
      simp [isDispatchTarget, hdispatch, hcode]
    right
    simp only [virtualTargets, hvirtual, hclass]
    exact List.mem_append_right _ (List.mem_map_of_mem (List.mem_filterMap.2 ⟨lower, hsubtype, hfound⟩))

/-- Below an interface, a class contributes the first declaration of the signature if that is a target. -/
theorem Selects.interfaceTarget?_eq {bound first : MethodDef} {type : TypeId} {owner : ClassDef}
    (h : program.Selects (sameSignature bound) type first) (howner : program.class? type = some owner)
    (hclass : owner.isInterface = false) :
    program.interfaceTarget? bound type = (some first).filter isDispatchTarget := by
  have hlookup : program.lookupMethod? type bound.reference.name bound.reference.descriptor = some first := by
    have hchain : (program.superclassChain type).findSome?
        (program.declaredMethod? bound.reference.name bound.reference.descriptor) = some first := by
      rw [funext (declaredMethod?_eq bound.reference.name bound.reference.descriptor)]
      exact h.findSome?_superclassChain
    rw [lookupMethod?, hchain, Option.some_or]
  rw [interfaceTarget?, howner, hlookup]
  simp [hclass]

theorem mem_interfaceTargets {bound target : MethodDef} {type : TypeId}
    (hsubtype : type ∈ program.subtypes bound.holder) (h : program.interfaceTarget? bound type = some target) :
    target.id ∈ program.interfaceTargets bound := by
  rw [interfaceTargets, List.mem_eraseDups]
  exact List.mem_append_right _ (List.mem_map_of_mem (List.mem_filterMap.2 ⟨type, hsubtype, h⟩))

/-! ### Targets are listed once -/

private theorem nodup_eraseDups {α : Type} [DecidableEq α] (items : List α) : items.eraseDups.Nodup := by
  induction hlength : items.length using Nat.strongRecOn generalizing items with
  | _ length ih =>
    cases items with
    | nil => exact List.nodup_nil
    | cons first rest =>
      rw [List.eraseDups_cons, List.nodup_cons]
      constructor
      · simp
      · have hle := List.length_filter_le (fun item => !item == first) rest
        exact ih _ (by rw [← hlength, List.length_cons]; omega) _ rfl

theorem interfaceTargets_nodup (program : Program) (bound : MethodDef) : (program.interfaceTargets bound).Nodup :=
  nodup_eraseDups _

/-- Methods that were declared in different types are different. -/
theorem Coherent.holder_unique (h : program.Coherent) {left right : TypeId} {method other : MethodDef}
    (hmethod : method ∈ program.ownMethods left) (hother : other ∈ program.ownMethods right)
    (hid : method.id = other.id) : left = right := by
  obtain ⟨hleft, hfound⟩ := h.ownMethods_spec hmethod
  obtain ⟨hright, hfound'⟩ := h.ownMethods_spec hother
  rw [hid, hfound'] at hfound
  rw [← hleft, ← hright, Option.some.inj hfound]

theorem virtualTargets_nodup (h : program.Coherent) {bound : MethodDef}
    (hbound : bound ∈ program.ownMethods bound.holder) : (program.virtualTargets bound).Nodup := by
  have hdeclared : ∀ {lower target}, ((program.declaredMethod? bound.reference.name bound.reference.descriptor
      lower).filter isDispatchTarget) = some target → target ∈ program.ownMethods lower := by
    intro lower target hfound
    have hdeclared := (Option.filter_eq_some_iff.1 hfound).1
    rw [declaredMethod?_eq] at hdeclared
    exact List.mem_of_find?_eq_some hdeclared
  unfold virtualTargets
  split
  · exact List.nodup_singleton _
  · split
    · exact program.interfaceTargets_nodup bound
    · have hoverrides : (((program.subtypes bound.holder).filterMap fun lower =>
          (program.declaredMethod? bound.reference.name bound.reference.descriptor lower).filter
            isDispatchTarget).map (·.id)).Nodup := by
        rw [List.map_filterMap]
        refine (program.subtypes_nodup bound.holder).filterMap ?_
        intro left right id hleft hright
        obtain ⟨method, hmethod, rfl⟩ := Option.map_eq_some_iff.1 hleft
        obtain ⟨other, hother, hid⟩ := Option.map_eq_some_iff.1 hright
        exact h.holder_unique (hdeclared hmethod) (hdeclared hother) hid.symm
      -- the holder itself is not strictly below itself
      have hfresh : bound.id ∉ ((program.subtypes bound.holder).filterMap fun lower =>
          (program.declaredMethod? bound.reference.name bound.reference.descriptor lower).filter
            isDispatchTarget).map (·.id) := by
        intro hmem
        obtain ⟨target, htarget, hid⟩ := List.mem_map.1 hmem
        obtain ⟨lower, hlower, hfound⟩ := List.mem_filterMap.1 htarget
        have hholder := h.holder_unique (hdeclared hfound) hbound hid
        subst hholder
        simp [subtypes] at hlower
      split
      · simpa using hoverrides
      · exact List.nodup_cons.2 ⟨hfresh, hoverrides⟩

end Bytecode.Program
