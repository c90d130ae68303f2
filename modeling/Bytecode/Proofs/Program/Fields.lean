import Bytecode.Proofs.Program.Hierarchy
/-!
# The fields of a class

A class of a declared program lists only fields that were declared for it. A field that is added later goes to the end
of the table of fields and, if its holder is a class, to the end of what that class lists; everything else that can be
asked of the program has the answer it had before.
-/

namespace Bytecode.Program

variable {program : Program}

/-! ### Adding one field -/

theorem fields_addField (program : Program) (holder : TypeId) (name descriptor : String) (flags : AccessFlags) :
    (program.addField holder name descriptor flags).1.fields
      = program.fields ++ [program.nextField holder name descriptor flags] := rfl

theorem class?_addField (program : Program) (holder : TypeId) (name descriptor : String) (flags : AccessFlags)
    (type : TypeId) :
    (program.addField holder name descriptor flags).1.class? type
      = if type = holder then
          (program.class? type).map fun owner => { owner with fields := owner.fields ++ [⟨program.fields.length⟩] }
        else program.class? type :=
  class?_modifyClass _ holder type _

/-- A field is in the table just as it was if it was there before. -/
theorem field?_of_append {later : Program} {added : List FieldDef} (hfields : later.fields = program.fields ++ added)
    {field : FieldId} {definition : FieldDef} (h : program.field? field = some definition) :
    later.field? field = some definition := by
  have hlt : field.index < program.fields.length := (List.getElem?_eq_some_iff.1 h).1
  rw [field?, hfields, List.getElem?_append_left hlt]
  exact h

theorem field?_nextField (program : Program) (holder : TypeId) (name descriptor : String) (flags : AccessFlags) :
    (program.addField holder name descriptor flags).1.field? ⟨program.fields.length⟩
      = some (program.nextField holder name descriptor flags) := by
  rw [field?, fields_addField]
  exact List.getElem?_concat_length

theorem typeName_modify (program : Program) (index : Nat) {f : TypeEntry → TypeEntry}
    (hf : ∀ entry, (f entry).name = entry.name) (type : TypeId) :
    ({ program with types := program.types.modify index f } : Program).typeName type = program.typeName type := by
  unfold typeName
  rw [List.getElem?_modify]
  cases program.types[type.index]? with
  | none => rfl
  | some entry => by_cases h : index = type.index <;> simp [h, hf]

theorem typeName_modifyClass (program : Program) (type other : TypeId) (f : ClassDef → ClassDef) :
    (program.modifyClass type f).typeName other = program.typeName other := by
  rw [modifyClass, typeName_modify]
  exact fun _ => rfl

theorem typeIds_modifyClass (program : Program) (type : TypeId) (f : ClassDef → ClassDef) :
    (program.modifyClass type f).typeIds = program.typeIds := by
  simp [typeIds, modifyClass]

/-! ### What a class lists -/

/-- A class lists only fields that were declared for it. -/
def FieldsListed (program : Program) : Prop :=
  ∀ type owner, program.class? type = some owner → ∀ field ∈ owner.fields,
    ∃ definition, program.field? field = some definition ∧ definition.holder = type

namespace FieldsListed

/-- What is declared later may add fields and describe fields and classes anew, but moves no field. -/
theorem of_fields_kept {later : Program} (h : program.FieldsListed)
    (hfield : ∀ field definition, program.field? field = some definition →
      ∃ changed, later.field? field = some changed ∧ changed.holder = definition.holder)
    (hclass : ∀ type owner, later.class? type = some owner →
      owner.fields = [] ∨ ∃ before, program.class? type = some before ∧ owner.fields = before.fields) :
    later.FieldsListed := by
  intro type owner hfound field hlisted
  rcases hclass type owner hfound with hnil | ⟨before, hbefore, heq⟩
  · rw [hnil] at hlisted
    exact absurd hlisted List.not_mem_nil
  · rw [heq] at hlisted
    obtain ⟨definition, hdefinition, hholder⟩ := h type before hbefore field hlisted
    obtain ⟨changed, hchanged, hsame⟩ := hfield field definition hdefinition
    exact ⟨changed, hchanged, hsame.trans hholder⟩

/-- Only the table of fields and the classes matter. -/
theorem of_tables_eq {later : Program} (h : program.FieldsListed) (hfields : later.fields = program.fields)
    (hclass : ∀ type, later.class? type = program.class? type) : later.FieldsListed := by
  refine h.of_fields_kept ?_ fun type owner hfound => .inr ⟨owner, (hclass type).symm.trans hfound, rfl⟩
  intro field definition hdefinition
  exact ⟨definition, by rwa [field?, hfields], rfl⟩

theorem modifyClass (h : program.FieldsListed) (type : TypeId) {f : ClassDef → ClassDef}
    (hf : ∀ owner, (f owner).fields = owner.fields) : (program.modifyClass type f).FieldsListed := by
  refine h.of_fields_kept (fun field definition hdefinition => ⟨definition, hdefinition, rfl⟩) ?_
  intro other owner hfound
  right
  obtain ⟨before, hbefore, rfl | ⟨-, rfl⟩⟩ := exists_of_class?_modifyClass hfound
  · exact ⟨_, hbefore, rfl⟩
  · exact ⟨before, hbefore, hf before⟩

theorem declareClass (h : program.FieldsListed) (name : String) (kind : ClassKind) (flags : AccessFlags)
    (superclass : Option TypeId) (interfaces : List TypeId) :
    (program.declareClass name kind flags superclass interfaces).1.FieldsListed := by
  apply h.of_fields_kept
  · intro field definition hdefinition
    have hfields : (program.declareClass name kind flags superclass interfaces).1.fields = program.fields :=
      fields_typeRef program name
    exact ⟨definition, by rwa [field?, hfields], rfl⟩
  · intro type owner hfound
    rw [class?_declareClass] at hfound
    split at hfound
    · cases hfound
      exact .inl rfl
    · exact .inr ⟨owner, hfound, rfl⟩

theorem addField (h : program.FieldsListed) (holder : TypeId) (name descriptor : String) (flags : AccessFlags) :
    (program.addField holder name descriptor flags).1.FieldsListed := by
  -- what a class listed before is in the table as it was
  have hold : ∀ type before, program.class? type = some before → ∀ field ∈ before.fields,
      ∃ definition, (program.addField holder name descriptor flags).1.field? field = some definition ∧
        definition.holder = type := by
    intro type before hbefore field hlisted
    obtain ⟨definition, hdefinition, hholder⟩ := h type before hbefore field hlisted
    exact ⟨definition, field?_of_append (fields_addField program holder name descriptor flags) hdefinition, hholder⟩
  intro type owner hfound field hlisted
  rw [class?_addField] at hfound
  split at hfound
  · next heq =>
    obtain ⟨before, hbefore, rfl⟩ := Option.map_eq_some_iff.1 hfound
    rcases List.mem_append.1 hlisted with hbelow | hnew
    · exact hold type before hbefore field hbelow
    · rw [List.mem_singleton.1 hnew]
      exact ⟨_, field?_nextField program holder name descriptor flags, heq.symm⟩
  · exact hold type owner hfound field hlisted

/-- What a class listed is found where it was when the table grows. -/
theorem fieldsOf_of_append {later : Program} {added : List FieldDef} (h : program.FieldsListed)
    (hfields : later.fields = program.fields ++ added) {type : TypeId} {owner : ClassDef}
    (howner : program.class? type = some owner) : later.fieldsOf owner = program.fieldsOf owner := by
  apply List.filterMap_congr
  intro field hfield
  obtain ⟨definition, hdefinition, -⟩ := h type owner howner field hfield
  rw [hdefinition]
  exact field?_of_append hfields hdefinition

theorem markFieldDead (h : program.FieldsListed) (field : FieldId) : (program.markFieldDead field).FieldsListed := by
  refine h.of_fields_kept ?_ fun type owner hfound => .inr ⟨owner, hfound, rfl⟩
  intro other definition hdefinition
  rw [field?] at hdefinition
  rw [field?, Program.markFieldDead, List.getElem?_modify, hdefinition]
  by_cases heq : field.index = other.index
  · exact ⟨{ definition with isDead := true }, by simp [heq], rfl⟩
  · exact ⟨definition, by simp [heq], rfl⟩

end FieldsListed

theorem Built.fieldsListed (h : program.Built) : program.FieldsListed := by
  induction h with
  | empty => simp [FieldsListed, class?]
  | typeRef name _ ih => exact ih.of_tables_eq (fields_typeRef _ name) (class?_typeRef _ name)
  | declareClass name kind flags superclass interfaces _ ih =>
    exact ih.declareClass name kind flags superclass interfaces
  | setQuietInitializer type quiet _ ih => exact ih.modifyClass type fun _ => rfl
  | addMethod holder name descriptor flags _ ih =>
    exact (ih.of_tables_eq rfl fun _ => rfl).modifyClass holder fun _ => rfl
  | addField holder name descriptor flags _ ih => exact ih.addField holder name descriptor flags
  | markFieldDead field _ ih => exact ih.markFieldDead field
  | putBody | removeBody | recordSummary | closeWorld | pinMethod | pinField =>
    next ih => exact ih.of_tables_eq rfl fun _ => rfl
  | markProcessed method _ ih =>
    rw [markProcessed_eq]
    exact ih.of_tables_eq rfl fun _ => rfl

theorem mem_fieldsOf {owner : ClassDef} {definition : FieldDef} :
    definition ∈ program.fieldsOf owner ↔ ∃ field ∈ owner.fields, program.field? field = some definition :=
  List.mem_filterMap

private theorem classes_eq (program : Program) : program.classes = program.typeIds.filterMap program.class? := by
  have hentries : ∀ entries : List TypeEntry, entries.filterMap (·.definition)
      = (List.range entries.length).filterMap fun index => entries[index]?.bind (·.definition) := by
    intro entries
    induction entries with
    | nil => rfl
    | cons entry entries ih =>
      rw [List.length_cons, List.range_succ_eq_map, List.filterMap_cons, List.filterMap_cons, ih, List.filterMap_map]
      rfl
  rw [classes, typeIds, List.filterMap_map, hentries]
  rfl

/-! ### Adding several fields -/

/-- The later program is the earlier one with the given fields added, and nothing else of it is different. -/
structure FieldsAppended (before after : Program) (added : List FieldDef) : Prop where
  fields : after.fields = before.fields ++ added
  added_id : ∀ definition ∈ added, after.field? definition.id = some definition
  class? : ∀ type, after.class? type = (before.class? type).map fun owner =>
    { owner with fields := owner.fields ++ (added.filter (·.holder = type)).map (·.id) }
  typeIds : after.typeIds = before.typeIds
  typeName : ∀ type, after.typeName type = before.typeName type
  methods : after.methods = before.methods
  bodies : after.bodies = before.bodies
  summaries : after.summaries = before.summaries
  processed : after.processed = before.processed
  liveness : after.liveness = before.liveness

namespace FieldsAppended

variable {before after : Program} {added : List FieldDef}

theorem refl (program : Program) : FieldsAppended program program [] where
  fields := (List.append_nil _).symm
  added_id := by simp
  class? := by simp
  typeIds := rfl
  typeName _ := rfl
  methods := rfl
  bodies := rfl
  summaries := rfl
  processed := rfl
  liveness := rfl

theorem addField (h : FieldsAppended before after added) (holder : TypeId) (name descriptor : String)
    (flags : AccessFlags) :
    FieldsAppended before (after.addField holder name descriptor flags).1
      (added ++ [after.nextField holder name descriptor flags]) where
  fields := by rw [fields_addField, h.fields, List.append_assoc]
  added_id := by
    intro definition hmem
    rcases List.mem_append.1 hmem with hbelow | hnew
    · exact field?_of_append (fields_addField after holder name descriptor flags) (h.added_id definition hbelow)
    · rw [List.mem_singleton.1 hnew]
      exact field?_nextField after holder name descriptor flags
  class? := by
    intro type
    rw [class?_addField, h.class?, List.filter_append]
    by_cases heq : type = holder
    · rw [if_pos heq, Option.map_map]
      simp [nextField, FieldDef.holder, heq, Function.comp_def]
    · rw [if_neg heq]
      simp [nextField, FieldDef.holder, Ne.symm heq]
  typeIds := (typeIds_modifyClass _ holder _).trans h.typeIds
  typeName type := (typeName_modifyClass _ holder type _).trans (h.typeName type)
  methods := h.methods
  bodies := h.bodies
  summaries := h.summaries
  processed := h.processed
  liveness := h.liveness

/-- A class that no added field belongs to is as it was. -/
theorem class?_eq (h : FieldsAppended before after added) {type : TypeId}
    (hnone : ∀ definition ∈ added, definition.holder ≠ type) : after.class? type = before.class? type := by
  have hfilter : added.filter (·.holder = type) = [] := by simpa using hnone
  rw [h.class?, hfilter]
  simp

theorem isSubtype_eq (h : FieldsAppended before after added) (lower upper : TypeId) :
    after.isSubtype lower upper = before.isSubtype lower upper := by
  have hparents : after.parents = before.parents := by
    funext type
    unfold parents
    rw [h.class?, Option.map_map]
    rfl
  unfold isSubtype supertypes
  rw [h.typeIds, hparents]

theorem isAccessible_eq (h : FieldsAppended before after added) (holder : TypeId) (visibility : Visibility)
    (context : TypeId) :
    after.isAccessible holder visibility context = before.isAccessible holder visibility context := by
  unfold isAccessible
  rw [h.typeName, h.typeName, h.isSubtype_eq]

theorem programMethods_eq (h : FieldsAppended before after added) : after.programMethods = before.programMethods := by
  rw [programMethods, programMethods, classes_eq, classes_eq, h.typeIds]
  induction before.typeIds with
  | nil => rfl
  | cons type types ih =>
    rw [List.filterMap_cons, List.filterMap_cons, h.class?]
    cases before.class? type with
    | none => exact ih
    | some owner =>
      have hkind : ∀ fields : List FieldId,
          ({ owner with fields := fields } : ClassDef).isProgramClass = owner.isProgramClass := fun _ => rfl
      simp only [Option.map_some, List.filter_cons]
      rw [hkind]
      split
      · rw [List.flatMap_cons, List.flatMap_cons, ih]
      · exact ih

/-- The fields of a class are those it had and those added to it. -/
theorem mem_fieldsOf (h : FieldsAppended before after added) (hlisted : before.FieldsListed) {type : TypeId}
    {owner : ClassDef} (howner : after.class? type = some owner) {definition : FieldDef}
    (hmem : definition ∈ after.fieldsOf owner) :
    (∃ earlier, before.class? type = some earlier ∧ definition ∈ before.fieldsOf earlier) ∨
      definition ∈ added ∧ definition.holder = type := by
  obtain ⟨field, hfield, hfound⟩ := Program.mem_fieldsOf.1 hmem
  rw [h.class?] at howner
  obtain ⟨earlier, hearlier, rfl⟩ := Option.map_eq_some_iff.1 howner
  rcases List.mem_append.1 hfield with hbelow | hnew
  · left
    obtain ⟨known, hknown, -⟩ := hlisted type earlier hearlier field hbelow
    have heq : known = definition := Option.some.inj ((field?_of_append h.fields hknown).symm.trans hfound)
    exact ⟨earlier, hearlier, Program.mem_fieldsOf.2 ⟨field, hbelow, heq ▸ hknown⟩⟩
  · right
    obtain ⟨source, hsource, rfl⟩ := List.mem_map.1 hnew
    obtain ⟨hmember, hholder⟩ := List.mem_filter.1 hsource
    cases (h.added_id source hmember).symm.trans hfound
    exact ⟨hmember, by simpa using hholder⟩

end FieldsAppended

end Bytecode.Program
