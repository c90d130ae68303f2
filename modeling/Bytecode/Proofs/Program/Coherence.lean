import Bytecode.Program.Resolution
import Mathlib.Data.List.Nodup
/-!
# What holds of every declared program

A program is declared piece by piece, from nothing, by the operations of `Program`. Two things hold of it however that
was done: an identifier is a position in its table, and a class lists, each once, only methods that were declared for it.
The second survives a second declaration of the class, which forgets the members of the first; their definitions stay
behind and belong to no class.

Since every method is looked up through the classes that list it, whatever a reference binds to and whatever a dynamic
call may run is listed by the class that holds it.
-/

namespace Bytecode.Program

/-- The programs that declarations lead to. -/
inductive Built : Program → Prop
  | empty : Built {}
  | typeRef {program : Program} (name : String) : Built program → Built (program.typeRef name).1
  | declareClass {program : Program} (name : String) (kind : ClassKind) (flags : AccessFlags)
      (superclass : Option TypeId) (interfaces : List TypeId) :
      Built program → Built (program.declareClass name kind flags superclass interfaces).1
  | setQuietInitializer {program : Program} (type : TypeId) (quiet : Bool) :
      Built program → Built (program.setQuietInitializer type quiet)
  | addMethod {program : Program} (holder : TypeId) (name descriptor : String) (flags : AccessFlags) :
      Built program → Built (program.addMethod holder name descriptor flags).1
  | addField {program : Program} (holder : TypeId) (name descriptor : String) (flags : AccessFlags) :
      Built program → Built (program.addField holder name descriptor flags).1
  | markFieldDead {program : Program} (field : FieldId) : Built program → Built (program.markFieldDead field)
  | putBody {program : Program} (method : MethodId) (body : Body) : Built program → Built (program.putBody method body)
  | removeBody {program : Program} (method : MethodId) : Built program → Built (program.removeBody method)
  | recordSummary {program : Program} (method : MethodId) (summary : InitializerSummary) :
      Built program → Built (program.recordSummary method summary)
  | markProcessed {program : Program} (method : MethodId) : Built program → Built (program.markProcessed method)
  | closeWorld {program : Program} : Built program → Built program.closeWorld
  | pinMethod {program : Program} (method : MethodId) : Built program → Built (program.pinMethod method)
  | pinField {program : Program} (field : FieldId) : Built program → Built (program.pinField field)

/-- Identifiers are positions, and a class lists only methods that were declared for it, each once. -/
structure Coherent (program : Program) : Prop where
  method_id : ∀ method definition, program.method? method = some definition → definition.id = method
  field_id : ∀ field definition, program.field? field = some definition → definition.id = field
  method_listed : ∀ type owner, program.class? type = some owner → ∀ method ∈ owner.methods,
    ∃ definition, program.method? method = some definition ∧ definition.holder = type
  methods_nodup : ∀ type owner, program.class? type = some owner → owner.methods.Nodup

/-! ### What a declaration does to the classes -/

theorem class?_modifyClass (program : Program) (type other : TypeId) (f : ClassDef → ClassDef) :
    (program.modifyClass type f).class? other
      = if other = type then (program.class? other).map f else program.class? other := by
  unfold class? modifyClass
  by_cases h : other = type
  · subst h
    cases hentry : program.types[other.index]? <;> simp [hentry]
  · have hindex : type.index ≠ other.index := fun heq => h (by cases other; cases type; simp_all)
    simp [h, hindex]

/-- A class of the changed table was in the table before, and it is as it was or the one that was changed. -/
theorem exists_of_class?_modifyClass {program : Program} {type other : TypeId} {f : ClassDef → ClassDef} {owner : ClassDef}
    (h : (program.modifyClass type f).class? other = some owner) :
    ∃ before, program.class? other = some before ∧ (owner = before ∨ other = type ∧ owner = f before) := by
  rw [class?_modifyClass] at h
  split at h
  · next heq =>
    obtain ⟨before, hbefore, rfl⟩ := Option.map_eq_some_iff.1 h
    exact ⟨before, hbefore, .inr ⟨heq, rfl⟩⟩
  · exact ⟨owner, h, .inl rfl⟩

private theorem class?_append_name (program : Program) (name : String) (type : TypeId) :
    ({ program with types := program.types ++ [{ name }] } : Program).class? type = program.class? type := by
  unfold class?
  rw [List.getElem?_append]
  by_cases h : type.index < program.types.length
  · rw [if_pos h]
  · rw [if_neg h, List.getElem?_eq_none (Nat.le_of_not_lt h)]
    cases hindex : type.index - program.types.length <;> simp

private theorem methods_typeRef (program : Program) (name : String) :
    (program.typeRef name).1.methods = program.methods := by
  unfold typeRef
  split <;> rfl

theorem fields_typeRef (program : Program) (name : String) : (program.typeRef name).1.fields = program.fields := by
  unfold typeRef
  split <;> rfl

theorem class?_typeRef (program : Program) (name : String) (type : TypeId) :
    (program.typeRef name).1.class? type = program.class? type := by
  unfold typeRef
  split
  · rfl
  · exact class?_append_name program name type

private theorem index_typeRef_lt (program : Program) (name : String) :
    (program.typeRef name).2.index < (program.typeRef name).1.types.length := by
  unfold typeRef
  split
  · next type hfound =>
    obtain ⟨index, hindex, rfl⟩ := Option.map_eq_some_iff.1 hfound
    exact (List.findIdx?_eq_some_iff_getElem.1 hindex).1
  · simp

/-- A declaration gives one type a class without members and leaves the others alone. -/
theorem class?_declareClass (program : Program) (name : String) (kind : ClassKind) (flags : AccessFlags)
    (superclass : Option TypeId) (interfaces : List TypeId) (type : TypeId) :
    (program.declareClass name kind flags superclass interfaces).1.class? type
      = if type = (program.typeRef name).2 then
          some { id := (program.typeRef name).2, name, kind, flags, superclass, interfaces }
        else program.class? type := by
  by_cases h : type = (program.typeRef name).2
  · subst h
    have hlt := index_typeRef_lt program name
    simp [declareClass, class?, hlt]
  · have hindex : (program.typeRef name).2.index ≠ type.index := by
      intro heq
      apply h
      cases htype : (program.typeRef name).2
      cases type
      simp_all
    rw [if_neg h, ← class?_typeRef program name type]
    simp [declareClass, class?, hindex]

theorem method?_addMethod (program : Program) (holder : TypeId) (name descriptor : String) (flags : AccessFlags)
    (method : MethodId) :
    (program.addMethod holder name descriptor flags).1.method? method
      = if method = ⟨program.methods.length⟩ then
          some { id := ⟨program.methods.length⟩, reference := { holder, name, descriptor }, flags }
        else program.method? method := by
  cases method with
  | mk index =>
    change (program.methods ++ [_])[index]? = _
    simp only [MethodId.mk.injEq, method?]
    rcases Nat.lt_trichotomy index program.methods.length with hlt | rfl | hgt
    · rw [if_neg (Nat.ne_of_lt hlt), List.getElem?_append_left hlt]
    · rw [if_pos rfl, List.getElem?_concat_length]
    · rw [if_neg (Nat.ne_of_gt hgt), List.getElem?_eq_none (Nat.le_of_lt hgt),
        List.getElem?_eq_none (by simpa using Nat.succ_le_of_lt hgt)]

/-- Only the holder lists more methods than before, and that by the new one. -/
theorem exists_of_class?_addMethod {program : Program} {holder type : TypeId} {name descriptor : String}
    {flags : AccessFlags} {owner : ClassDef}
    (h : (program.addMethod holder name descriptor flags).1.class? type = some owner) :
    ∃ before, program.class? type = some before ∧
      (owner.methods = before.methods ∨
        type = holder ∧ owner.methods = before.methods ++ [⟨program.methods.length⟩]) := by
  rw [addMethod] at h
  obtain ⟨before, hbefore, rfl | ⟨htype, rfl⟩⟩ := exists_of_class?_modifyClass h
  · exact ⟨_, hbefore, .inl rfl⟩
  · exact ⟨before, hbefore, .inr ⟨htype, rfl⟩⟩

/-! ### Coherence is kept -/

namespace Coherent

theorem empty : Coherent {} where
  method_id := by simp [method?]
  field_id := by simp [field?]
  method_listed := by simp [class?]
  methods_nodup := by simp [class?]

/-- What is declared later may change fields and the description of classes, but not what these list. -/
theorem of_methods_eq {program later : Program} (h : program.Coherent) (hmethods : later.methods = program.methods)
    (hfields : ∀ field definition, later.field? field = some definition → definition.id = field)
    (hclass : ∀ type owner, later.class? type = some owner →
      owner.methods = [] ∨ ∃ before, program.class? type = some before ∧ owner.methods = before.methods) :
    later.Coherent where
  method_id := by
    intro method definition hfound
    rw [method?, hmethods] at hfound
    exact h.method_id method definition hfound
  field_id := hfields
  method_listed := by
    intro type owner hfound method hmethod
    rw [method?, hmethods]
    rcases hclass type owner hfound with hnil | ⟨before, hbefore, heq⟩
    · rw [hnil] at hmethod
      exact absurd hmethod List.not_mem_nil
    · rw [heq] at hmethod
      exact h.method_listed type before hbefore method hmethod
  methods_nodup := by
    intro type owner hfound
    rcases hclass type owner hfound with hnil | ⟨before, hbefore, heq⟩
    · rw [hnil]
      exact List.nodup_nil
    · rw [heq]
      exact h.methods_nodup type before hbefore

/-- Only the tables of types, methods and fields matter. -/
theorem of_tables_eq {program later : Program} (h : program.Coherent) (htypes : later.types = program.types)
    (hmethods : later.methods = program.methods) (hfields : later.fields = program.fields) : later.Coherent := by
  apply h.of_methods_eq hmethods
  · intro field definition hfound
    rw [field?, hfields] at hfound
    exact h.field_id field definition hfound
  · intro type owner hfound
    rw [class?, htypes] at hfound
    exact .inr ⟨owner, hfound, rfl⟩

theorem modifyClass {program : Program} (h : program.Coherent) (type : TypeId) {f : ClassDef → ClassDef}
    (hf : ∀ owner, (f owner).methods = owner.methods) : (program.modifyClass type f).Coherent := by
  refine h.of_methods_eq rfl h.field_id fun other owner hfound => .inr ?_
  obtain ⟨before, hbefore, rfl | ⟨-, rfl⟩⟩ := exists_of_class?_modifyClass hfound
  · exact ⟨_, hbefore, rfl⟩
  · exact ⟨before, hbefore, hf before⟩

theorem typeRef {program : Program} (h : program.Coherent) (name : String) : (program.typeRef name).1.Coherent := by
  refine h.of_methods_eq (methods_typeRef program name) ?_ ?_
  · intro field definition hfound
    rw [field?, fields_typeRef] at hfound
    exact h.field_id field definition hfound
  · intro type owner hfound
    rw [class?_typeRef] at hfound
    exact .inr ⟨owner, hfound, rfl⟩

theorem declareClass {program : Program} (h : program.Coherent) (name : String) (kind : ClassKind) (flags : AccessFlags)
    (superclass : Option TypeId) (interfaces : List TypeId) :
    (program.declareClass name kind flags superclass interfaces).1.Coherent := by
  refine h.of_methods_eq (methods_typeRef program name) ?_ ?_
  · exact (h.typeRef name).field_id
  · intro type owner hfound
    rw [class?_declareClass] at hfound
    split at hfound
    · cases hfound
      exact .inl rfl
    · exact .inr ⟨owner, hfound, rfl⟩

theorem addMethod {program : Program} (h : program.Coherent) (holder : TypeId) (name descriptor : String)
    (flags : AccessFlags) : (program.addMethod holder name descriptor flags).1.Coherent := by
  -- a listed method has a definition, so its position lies before the new one
  have hfresh : ∀ type owner, program.class? type = some owner → ⟨program.methods.length⟩ ∉ owner.methods := by
    intro type owner hfound hmem
    obtain ⟨definition, hdefinition, -⟩ := h.method_listed type owner hfound _ hmem
    simp [method?] at hdefinition
  constructor
  · intro method definition hfound
    rw [method?_addMethod] at hfound
    split at hfound
    · next heq =>
      rw [heq, ← Option.some.inj hfound]
    · exact h.method_id method definition hfound
  · exact h.field_id
  · intro type owner hfound method hlisted
    obtain ⟨before, hbefore, hcases⟩ := exists_of_class?_addMethod hfound
    have hold : method ∈ before.methods → ∃ definition,
        (program.addMethod holder name descriptor flags).1.method? method = some definition ∧
          definition.holder = type := by
      intro hmem
      have hne : method ≠ ⟨program.methods.length⟩ := fun heq => hfresh type before hbefore (heq ▸ hmem)
      rw [method?_addMethod, if_neg hne]
      exact h.method_listed type before hbefore method hmem
    rcases hcases with heq | ⟨rfl, heq⟩
    · exact hold (heq ▸ hlisted)
    · rw [heq, List.mem_append, List.mem_singleton] at hlisted
      rcases hlisted with hmem | rfl
      · exact hold hmem
      · exact ⟨_, by rw [method?_addMethod, if_pos rfl], rfl⟩
  · intro type owner hfound
    obtain ⟨before, hbefore, hcases⟩ := exists_of_class?_addMethod hfound
    have hnodup := h.methods_nodup type before hbefore
    rcases hcases with heq | ⟨-, heq⟩
    · rwa [heq]
    · rw [heq, List.nodup_append]
      refine ⟨hnodup, List.nodup_singleton _, ?_⟩
      intro left hleft right hright
      rw [List.mem_singleton.1 hright]
      exact fun heq => hfresh type before hbefore (heq ▸ hleft)

theorem addField {program : Program} (h : program.Coherent) (holder : TypeId) (name descriptor : String)
    (flags : AccessFlags) : (program.addField holder name descriptor flags).1.Coherent := by
  have hextended : ({ program with
      fields := program.fields ++ [{ id := ⟨program.fields.length⟩, reference := { holder, name, descriptor }, flags }] }
        : Program).Coherent := by
    refine h.of_methods_eq rfl ?_ fun type owner hfound => .inr ⟨owner, hfound, rfl⟩
    intro field definition hfound
    rw [field?, List.getElem?_append] at hfound
    split at hfound
    · exact h.field_id field definition hfound
    · next hlength =>
      cases hindex : field.index - program.fields.length with
      | succ index => simp [hindex] at hfound
      | zero =>
        have hlast : program.fields.length = field.index := by omega
        rw [hindex, List.getElem?_cons_zero] at hfound
        rw [← Option.some.inj hfound, hlast]
  exact hextended.modifyClass holder fun _ => rfl

theorem markFieldDead {program : Program} (h : program.Coherent) (field : FieldId) :
    (program.markFieldDead field).Coherent := by
  refine h.of_methods_eq rfl ?_ fun type owner hfound => .inr ⟨owner, hfound, rfl⟩
  intro other definition hfound
  rw [field?, Program.markFieldDead, List.getElem?_modify] at hfound
  obtain ⟨before, hbefore, rfl⟩ := Option.map_eq_some_iff.1 hfound
  have hid := h.field_id other before hbefore
  split <;> exact hid

end Coherent

/-- Only the marks are different once a method is marked. -/
theorem markProcessed_eq (program : Program) (method : MethodId) :
    program.markProcessed method = { program with processed := (program.markProcessed method).processed } := by
  unfold markProcessed
  split <;> rfl

theorem Built.coherent {program : Program} (h : program.Built) : program.Coherent := by
  induction h with
  | empty => exact .empty
  | typeRef name _ ih => exact ih.typeRef name
  | declareClass name kind flags superclass interfaces _ ih =>
    exact ih.declareClass name kind flags superclass interfaces
  | setQuietInitializer type quiet _ ih => exact ih.modifyClass type fun _ => rfl
  | addMethod holder name descriptor flags _ ih => exact ih.addMethod holder name descriptor flags
  | addField holder name descriptor flags _ ih => exact ih.addField holder name descriptor flags
  | markFieldDead field _ ih => exact ih.markFieldDead field
  | putBody | removeBody | recordSummary | closeWorld | pinMethod | pinField =>
    next ih => exact ih.of_tables_eq rfl rfl rfl
  | markProcessed method _ ih =>
    rw [markProcessed_eq]
    exact ih.of_tables_eq rfl rfl rfl

/-! ### The program's own methods -/

theorem class?_eq_some_of_mem {program : Program} {index : Nat} {entry : TypeEntry}
    (h : program.types[index]? = some entry) : program.class? ⟨index⟩ = entry.definition := by
  rw [class?, h]
  rfl

theorem mem_programMethods {program : Program} {method : MethodId} :
    method ∈ program.programMethods ↔
      ∃ type owner, program.class? type = some owner ∧ owner.isProgramClass = true ∧ method ∈ owner.methods := by
  simp only [programMethods, classes, List.mem_flatMap, List.mem_filter, List.mem_filterMap]
  constructor
  · rintro ⟨owner, ⟨⟨entry, hentry, hdefinition⟩, hprogram⟩, hmethod⟩
    obtain ⟨index, hindex⟩ := List.mem_iff_getElem?.1 hentry
    exact ⟨⟨index⟩, owner, (class?_eq_some_of_mem hindex).trans hdefinition, hprogram, hmethod⟩
  · rintro ⟨type, owner, hclass, hprogram, hmethod⟩
    obtain ⟨entry, hentry, hdefinition⟩ := Option.bind_eq_some_iff.1 hclass
    exact ⟨owner, ⟨⟨entry, List.mem_of_getElem? hentry, hdefinition⟩, hprogram⟩, hmethod⟩

/-- No two classes list the same method, since it was declared for one of them only. -/
theorem Coherent.programMethods_nodup {program : Program} (h : program.Coherent) : program.programMethods.Nodup := by
  have hclasses : program.types.Pairwise fun left right => ∀ above ∈ left.definition, ∀ below ∈ right.definition,
      above.methods.Disjoint below.methods := by
    rw [List.pairwise_iff_getElem]
    intro low high hlow hhigh hlt above habove below hbelow method hleft hright
    have hupper := class?_eq_some_of_mem (List.getElem?_eq_getElem hlow)
    have hlower := class?_eq_some_of_mem (List.getElem?_eq_getElem hhigh)
    obtain ⟨definition, hfound, hholder⟩ := h.method_listed _ _ (hupper.trans habove) method hleft
    obtain ⟨other, hother, hholder'⟩ := h.method_listed _ _ (hlower.trans hbelow) method hright
    have hsame : definition = other := Option.some.inj (hfound.symm.trans hother)
    rw [← hsame, hholder] at hholder'
    exact absurd (congrArg TypeId.index hholder') (Nat.ne_of_lt hlt)
  rw [programMethods, List.nodup_flatMap]
  constructor
  · intro owner howner
    obtain ⟨entry, hentry, hdefinition⟩ := List.mem_filterMap.1 (List.mem_of_mem_filter howner)
    obtain ⟨index, hindex⟩ := List.mem_iff_getElem?.1 hentry
    exact h.methods_nodup _ owner ((class?_eq_some_of_mem hindex).trans hdefinition)
  · exact (hclasses.filterMap _ fun left right hdisjoint above habove below hbelow =>
      hdisjoint above habove below hbelow).filter _

/-! ### What references bind to is listed -/

/-- The class that holds the method lists it. -/
def Listed (program : Program) (definition : MethodDef) : Prop :=
  ∃ owner, program.class? definition.holder = some owner ∧ definition.id ∈ owner.methods

variable {program : Program}

theorem Listed.mem_programMethods {definition : MethodDef} (hlisted : program.Listed definition)
    (hprogram : program.isProgramMethod definition = true) : definition.id ∈ program.programMethods := by
  obtain ⟨owner, howner, hmem⟩ := hlisted
  refine Program.mem_programMethods.2 ⟨definition.holder, owner, howner, ?_, hmem⟩
  rw [isProgramMethod, isProgramType, howner] at hprogram
  exact hprogram

/-- Wherever a declaration is looked for, some type declares what is found. -/
theorem exists_declaredMethod?_of_lookupMethod? {name descriptor : String} {type : TypeId} {definition : MethodDef}
    (hfound : program.lookupMethod? type name descriptor = some definition) :
    ∃ holder, program.declaredMethod? name descriptor holder = some definition := by
  rcases Option.or_eq_some_iff.1 hfound with hchain | ⟨-, hinterface⟩
  · obtain ⟨holder, -, hdeclared⟩ := List.exists_of_findSome?_eq_some hchain
    exact ⟨holder, hdeclared⟩
  · have hmem : definition ∈ (program.superinterfaces (program.superclassChain type)).filterMap
        (program.declaredMethod? name descriptor) := by
      rcases Option.or_eq_some_iff.1 hinterface with hcode | ⟨-, hfirst⟩
      · exact List.mem_of_find?_eq_some hcode
      · exact List.mem_of_mem_head? hfirst
    obtain ⟨holder, -, hdeclared⟩ := List.mem_filterMap.1 hmem
    exact ⟨holder, hdeclared⟩

namespace Coherent

theorem method?_of_listed (h : program.Coherent) {definition : MethodDef} (hlisted : program.Listed definition) :
    ∃ found, program.method? definition.id = some found ∧ found.holder = definition.holder := by
  obtain ⟨owner, howner, hmem⟩ := hlisted
  exact h.method_listed definition.holder owner howner definition.id hmem

theorem declaredMethod?_listed (h : program.Coherent) {name descriptor : String} {type : TypeId}
    {definition : MethodDef} (hfound : program.declaredMethod? name descriptor type = some definition) :
    program.Listed definition := by
  obtain ⟨owner, howner, hfind⟩ := Option.bind_eq_some_iff.1 hfound
  obtain ⟨method, hmethod, hdefinition⟩ := List.mem_filterMap.1 (List.mem_of_find?_eq_some hfind)
  obtain ⟨same, hsame, hholder⟩ := h.method_listed type owner howner method hmethod
  obtain rfl : same = definition := Option.some.inj (hsame.symm.trans hdefinition)
  refine ⟨owner, by rw [hholder, howner], ?_⟩
  rwa [h.method_id method same hsame]

private theorem lookupMethod?_listed (h : program.Coherent) {name descriptor : String} {type : TypeId}
    {definition : MethodDef} (hfound : program.lookupMethod? type name descriptor = some definition) :
    program.Listed definition := by
  obtain ⟨holder, hdeclared⟩ := exists_declaredMethod?_of_lookupMethod? hfound
  exact h.declaredMethod?_listed hdeclared

theorem resolveMethod?_listed (h : program.Coherent) {kind : InvokeKind} {reference : MethodRef}
    {definition : MethodDef} (hfound : program.resolveMethod? kind reference = some definition) :
    program.Listed definition :=
  h.lookupMethod?_listed (Option.filter_eq_some_iff.1 hfound).1

private theorem interfaceTarget?_listed (h : program.Coherent) {definition target : MethodDef} {lower : TypeId}
    (hfound : program.interfaceTarget? definition lower = some target) : program.Listed target := by
  obtain ⟨owner, -, htarget⟩ := Option.bind_eq_some_iff.1 hfound
  split at htarget
  · exact h.declaredMethod?_listed (Option.filter_eq_some_iff.1 htarget).1
  · exact h.lookupMethod?_listed (Option.filter_eq_some_iff.1 htarget).1

theorem interfaceTargets_listed (h : program.Coherent) {definition : MethodDef} (hlisted : program.Listed definition)
    {target : MethodId} (htarget : target ∈ program.interfaceTargets definition) :
    ∃ found, program.Listed found ∧ found.id = target := by
  rw [interfaceTargets, List.mem_eraseDups, List.mem_append] at htarget
  rcases htarget with hown | hinherited
  · split at hown
    · exact absurd hown List.not_mem_nil
    · exact ⟨definition, hlisted, (List.mem_singleton.1 hown).symm⟩
  · obtain ⟨found, hfound, hid⟩ := List.mem_map.1 hinherited
    obtain ⟨lower, -, hlower⟩ := List.mem_filterMap.1 hfound
    exact ⟨found, h.interfaceTarget?_listed hlower, hid⟩

theorem virtualTargets_listed (h : program.Coherent) {definition : MethodDef} (hlisted : program.Listed definition)
    {target : MethodId} (htarget : target ∈ program.virtualTargets definition) :
    ∃ found, program.Listed found ∧ found.id = target := by
  unfold virtualTargets at htarget
  split at htarget
  · exact ⟨definition, hlisted, (List.mem_singleton.1 htarget).symm⟩
  · split at htarget
    · exact h.interfaceTargets_listed hlisted htarget
    · rcases List.mem_append.1 htarget with hown | hoverride
      · split at hown
        · exact absurd hown List.not_mem_nil
        · exact ⟨definition, hlisted, (List.mem_singleton.1 hown).symm⟩
      · obtain ⟨found, hfound, hid⟩ := List.mem_map.1 hoverride
        obtain ⟨lower, -, hlower⟩ := List.mem_filterMap.1 hfound
        exact ⟨found, h.declaredMethod?_listed (Option.filter_eq_some_iff.1 hlower).1, hid⟩

end Coherent

end Bytecode.Program
