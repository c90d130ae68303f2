import Bytecode.Proofs.Program.Hierarchy
import Mathlib.Data.List.Perm.Subperm
/-!
# Where a field is found

A field is looked for in a type, then in its interfaces one after another, each with all above it, and then in its
superclass. Types that were looked at are not looked at again, so that the search ends in a hierarchy with cycles too.
It finds a declaration exactly if a type above the holder of the reference has one. If no type is above itself, the record
of the types looked at makes no difference, and the search is the plain recursion.
-/

namespace Bytecode.Program

variable {program : Program}

/-- The type declares the field, under the name and descriptor of the reference. -/
def Declares (program : Program) (reference : FieldRef) (type : TypeId) (definition : FieldDef) : Prop :=
  ∃ owner, program.class? type = some owner ∧ definition ∈ program.fieldsOf owner ∧
    definition.reference.name = reference.name ∧ definition.reference.descriptor = reference.descriptor

/-- No type is above itself. -/
def Acyclic (program : Program) : Prop :=
  ∀ type, ¬Relation.TransGen program.Extends type type

/-! ### Above a type -/

theorem extends_iff_interface_or_superclass {lower upper : TypeId} :
    program.Extends lower upper ↔ upper ∈ program.interfaces lower ++ (program.superclass? lower).toList := by
  unfold Extends parents interfaces superclass?
  cases program.class? lower with
  | none => simp
  | some owner => simp [ClassDef.parents, or_comm]

private theorem mem_fieldSearchOrder_iff {lower upper : TypeId} :
    upper ∈ program.fieldSearchOrder lower ↔ Relation.ReflTransGen program.Extends lower upper :=
  mem_search_iff_path (fun _ _ => extends_iff_interface_or_superclass.symm) fun _ _ => id

/-- In a hierarchy without cycles a type has more types above it than its parents have. -/
theorem Acyclic.supertypes_length_lt (h : program.Acyclic) {lower upper : TypeId} (hextends : program.Extends lower upper) :
    (program.supertypes upper).length < (program.supertypes lower).length := by
  have hnot : lower ∉ program.supertypes upper := by
    intro hmem
    exact h lower (.head' hextends (mem_supertypes_iff.1 hmem))
  have hsubset : lower :: program.supertypes upper ⊆ program.supertypes lower := by
    intro type htype
    rw [mem_supertypes_iff]
    rcases List.mem_cons.1 htype with rfl | habove
    · exact .refl
    · exact (mem_supertypes_iff.1 habove).head hextends
  exact (List.subperm_of_subset (List.nodup_cons.2 ⟨hnot, Graph.search_nodup [upper]⟩) hsubset).length_le

/-! ### The plain recursion -/

/-- The first declaration of the type itself, else the first success among its interfaces in order, else that of its
superclass. -/
def inheritedField? (program : Program) (hacyclic : program.Acyclic) (reference : FieldRef) (type : TypeId) :
    Option FieldDef :=
  (program.declaredField? reference type).or
    (((program.interfaces type).attach.findSome? fun upper =>
        program.inheritedField? hacyclic reference upper.1).or
      ((program.superclass? type).attach.bind fun upper => program.inheritedField? hacyclic reference upper.1))
termination_by (program.supertypes type).length
decreasing_by
  · exact hacyclic.supertypes_length_lt
      (extends_iff_interface_or_superclass.2 (List.mem_append_left _ upper.2))
  · exact hacyclic.supertypes_length_lt
      (extends_iff_interface_or_superclass.2 (List.mem_append_right _ (Option.mem_toList.2 upper.2)))

private theorem inheritedField?_followsLinks (hacyclic : program.Acyclic) (reference : FieldRef) :
    Graph.FollowsLinks (fun lower => program.interfaces lower ++ (program.superclass? lower).toList)
      (program.declaredField? reference) (program.inheritedField? hacyclic reference) := by
  intro type
  rw [inheritedField?, List.findSome?_append]
  congr 2
  · conv_rhs => rw [← List.attach_map_subtype_val (program.interfaces type), List.findSome?_map]
    rfl
  · cases program.superclass? type <;> simp

/-- Without cycles the search with its record of types is the plain recursion. -/
theorem resolveField?_eq_inheritedField? (hacyclic : program.Acyclic) (reference : FieldRef) :
    program.resolveField? reference = program.inheritedField? hacyclic reference reference.holder := by
  apply (inheritedField?_followsLinks hacyclic reference).findSome?_search
  · intro type hunknown
    rw [List.eq_nil_iff_forall_not_mem]
    intro upper hupper
    obtain ⟨owner, hclass, -⟩ := extends_iff.1 (extends_iff_interface_or_superclass.2 hupper)
    exact hunknown (mem_typeIds_of_class? hclass)
  · intro lower upper hupper
    exact hacyclic.supertypes_length_lt (extends_iff_interface_or_superclass.2 hupper)

/-! ### What is found -/

private theorem declares_of_declaredField? {reference : FieldRef} {type : TypeId} {definition : FieldDef}
    (h : program.declaredField? reference type = some definition) : program.Declares reference type definition := by
  obtain ⟨owner, hclass, hfind⟩ := Option.bind_eq_some_iff.1 h
  have hmatches := List.find?_some hfind
  rw [Bool.and_eq_true, beq_iff_eq, beq_iff_eq] at hmatches
  exact ⟨owner, hclass, List.mem_of_find?_eq_some hfind, hmatches⟩

private theorem declaredField?_eq_none_iff {reference : FieldRef} {type : TypeId} :
    program.declaredField? reference type = none ↔ ∀ definition, ¬program.Declares reference type definition := by
  constructor
  · rintro hnone definition ⟨owner, hclass, hmem, hname, hdescriptor⟩
    have hfails := List.find?_eq_none.1 ((Option.bind_eq_none_iff.1 hnone) owner hclass) definition hmem
    rw [hname, hdescriptor, beq_self_eq_true, beq_self_eq_true] at hfails
    exact hfails rfl
  · intro hdeclares
    rw [Option.eq_none_iff_forall_ne_some]
    intro definition hfound
    exact hdeclares definition (declares_of_declaredField? hfound)

/-- **Resolving a field.** Nothing is found exactly if no type above the holder declares the field, and what is found is
declared by such a type. If no type is above itself, the result is that of the plain recursion. -/
theorem field_resolution_is_plain_recursion (program : Program) (reference : FieldRef) :
    (program.resolveField? reference = none ↔
      ∀ type, Relation.ReflTransGen program.Extends reference.holder type →
        ∀ definition, ¬program.Declares reference type definition) ∧
    (∀ definition, program.resolveField? reference = some definition →
      ∃ type, Relation.ReflTransGen program.Extends reference.holder type ∧
        program.Declares reference type definition) ∧
    ∀ hacyclic : program.Acyclic,
      program.resolveField? reference = program.inheritedField? hacyclic reference reference.holder := by
  refine ⟨?_, ?_, fun hacyclic => resolveField?_eq_inheritedField? hacyclic reference⟩
  · rw [resolveField?, List.findSome?_eq_none_iff]
    simp only [mem_fieldSearchOrder_iff, declaredField?_eq_none_iff]
  · intro definition hfound
    obtain ⟨type, hmem, hdeclared⟩ := List.exists_of_findSome?_eq_some hfound
    exact ⟨type, mem_fieldSearchOrder_iff.1 hmem, declares_of_declaredField? hdeclared⟩

/-- If parents always come first in the table, no type is above itself. -/
theorem acyclic_of_parents_first
    (h : ∀ lower ∈ program.typeIds, ∀ upper ∈ program.parents lower, upper.index < lower.index) : program.Acyclic := by
  have hlt : ∀ lower upper, Relation.TransGen program.Extends lower upper → upper.index < lower.index := by
    intro lower upper hpath
    have hstep : ∀ {lower upper}, program.Extends lower upper → upper.index < lower.index := by
      intro lower upper hextends
      obtain ⟨owner, hclass, -⟩ := extends_iff.1 hextends
      exact h lower (mem_typeIds_of_class? hclass) upper hextends
    induction hpath with
    | single hextends => exact hstep hextends
    | tail _ hextends ih => exact Nat.lt_trans (hstep hextends) ih
  exact fun type hcycle => Nat.lt_irrefl _ (hlt type type hcycle)

/-- A class with two interfaces that extend a common third one, and with a superclass that declares a field. -/
def commonInterface : Program :=
  let common := (({} : Program).declareClass "LK;" .program ⟨0x201⟩ none []).1
  let left := (common.declareClass "LI;" .program ⟨0x201⟩ none [⟨0⟩]).1
  let right := (left.declareClass "LJ;" .program ⟨0x201⟩ none [⟨0⟩]).1
  let upper := (right.declareClass "LB;" .program ⟨1⟩ none []).1
  let lower := (upper.declareClass "LC;" .program ⟨1⟩ (some ⟨3⟩) [⟨1⟩, ⟨2⟩]).1
  (lower.addField ⟨3⟩ "x" "I" ⟨1⟩).1

private theorem commonInterface_acyclic : commonInterface.Acyclic :=
  acyclic_of_parents_first (by decide)

/-- The common interface is met twice before the field is found in the superclass. -/
theorem field_resolution_of_commonInterface :
    let reference : FieldRef := { holder := ⟨4⟩, name := "x", descriptor := "I" }
    commonInterface.fieldSearchOrder ⟨4⟩ = [⟨4⟩, ⟨1⟩, ⟨0⟩, ⟨2⟩, ⟨3⟩] ∧
      (commonInterface.resolveField? reference).map (·.holder) = some ⟨3⟩ ∧
      commonInterface.resolveField? reference
        = commonInterface.inheritedField? commonInterface_acyclic reference ⟨4⟩ := by
  intro reference
  exact ⟨by decide +kernel, by decide +kernel,
    (field_resolution_is_plain_recursion commonInterface reference).2.2 commonInterface_acyclic⟩

end Bytecode.Program
