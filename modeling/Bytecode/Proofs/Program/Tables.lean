import Bytecode.Proofs.Program.Fields
/-!
# The tables of a declared program

However a program was declared, its tables fit together. Types and their names determine each other, every definition
carries its own position, and each class lists, in ascending order, only members that name it as their holder, so a
member belongs to one class at most. What one declaration does to all this is said once (`DeclarationStep`): it leaves the
known types their names, and a class keeps what it lists, gets the newest member as well or begins anew with nothing.

A program that has been declared is still extended by static fields. Such a request works on the program in place, where
a failure in the middle would leave its traces; but the one thing that can fail is checked before anything is written.
-/

namespace Bytecode.Program

variable {program : Program}

/-! ### One declaration -/

/-- What one declaration does to the names of types and to what classes list. -/
structure DeclarationStep (before after : Program) : Prop where
  names : ∀ type ∈ after.typeIds,
    type ∈ before.typeIds ∧ after.typeName type = before.typeName type ∨
      type = ⟨before.types.length⟩ ∧ ∀ known ∈ before.typeIds, before.typeName known ≠ after.typeName type
  classes : ∀ type owner, after.class? type = some owner →
    owner.methods = [] ∧ owner.fields = [] ∨
      ∃ earlier, before.class? type = some earlier ∧
        (owner.methods = earlier.methods ∨ owner.methods = earlier.methods ++ [⟨before.methods.length⟩]) ∧
        (owner.fields = earlier.fields ∨ owner.fields = earlier.fields ++ [⟨before.fields.length⟩])

private theorem typeName_of_getElem? {type : TypeId} {entry : TypeEntry} (h : program.types[type.index]? = some entry) :
    program.typeName type = entry.name := by
  rw [typeName, h]
  rfl

private theorem lookupType?_eq_none {name : String} (h : program.lookupType? name = none) :
    ∀ type ∈ program.typeIds, program.typeName type ≠ name := by
  intro type hmem
  have hfound := List.getElem?_eq_getElem (mem_typeIds.1 hmem)
  have hother := List.findIdx?_eq_none_iff.1 (Option.map_eq_none_iff.1 h) _ (List.mem_of_getElem? hfound)
  rw [typeName_of_getElem? hfound]
  exact of_decide_eq_false hother

private theorem lookupType?_eq_some {name : String} {type : TypeId} (h : program.lookupType? name = some type) :
    type ∈ program.typeIds ∧ program.typeName type = name := by
  obtain ⟨index, hindex, rfl⟩ := Option.map_eq_some_iff.1 h
  obtain ⟨hlt, hname, -⟩ := List.findIdx?_eq_some_iff_getElem.1 hindex
  refine ⟨mem_typeIds.2 hlt, ?_⟩
  rw [typeName_of_getElem? (List.getElem?_eq_getElem hlt)]
  exact of_decide_eq_true hname

namespace DeclarationStep

private theorem of_types_eq {later : Program} (h : later.types = program.types) : DeclarationStep program later where
  names type hmem := by
    rw [typeIds, h] at hmem
    exact .inl ⟨hmem, by rw [typeName, typeName, h]⟩
  classes type owner hfound := by
    rw [class?, h] at hfound
    exact .inr ⟨owner, hfound, .inl rfl, .inl rfl⟩

theorem typeRef (program : Program) (name : String) : DeclarationStep program (program.typeRef name).1 where
  names := by
    unfold Program.typeRef
    split
    · exact fun type hmem => .inl ⟨hmem, rfl⟩
    · next hnone =>
      intro type hmem
      rcases Nat.lt_or_ge type.index program.types.length with hlt | hge
      · refine .inl ⟨mem_typeIds.2 hlt, ?_⟩
        rw [typeName, typeName, List.getElem?_append_left hlt]
      · have hlt : type.index < program.types.length + 1 := by simpa using mem_typeIds.1 hmem
        have hlast : type = ⟨program.types.length⟩ := by
          cases type
          simp_all
          omega
        refine .inr ⟨hlast, ?_⟩
        have hname : ({ program with types := program.types ++ [{ name }] } : Program).typeName type = name := by
          rw [hlast]
          simp [typeName]
        rw [hname]
        exact lookupType?_eq_none hnone
  classes type owner hfound := by
    rw [class?_typeRef] at hfound
    exact .inr ⟨owner, hfound, .inl rfl, .inl rfl⟩

theorem declareClass (program : Program) (name : String) (kind : ClassKind) (flags : AccessFlags)
    (superclass : Option TypeId) (interfaces : List TypeId) :
    DeclarationStep program (program.declareClass name kind flags superclass interfaces).1 where
  names type hmem := by
    have hname : (program.declareClass name kind flags superclass interfaces).1.typeName type
        = (program.typeRef name).1.typeName type := by
      refine typeName_modify _ _ ?_ type
      exact fun _ => rfl
    rw [hname]
    exact (typeRef program name).names type (by simpa [typeIds, Program.declareClass] using hmem)
  classes type owner hfound := by
    rw [class?_declareClass] at hfound
    split at hfound
    · cases hfound
      exact .inl ⟨rfl, rfl⟩
    · exact .inr ⟨owner, hfound, .inl rfl, .inl rfl⟩

theorem modifyClass {later : Program} (htypes : later.types = program.types) (type : TypeId) {f : ClassDef → ClassDef}
    (hmethods : ∀ owner, (f owner).methods = owner.methods ∨
      (f owner).methods = owner.methods ++ [⟨program.methods.length⟩])
    (hfields : ∀ owner, (f owner).fields = owner.fields ∨
      (f owner).fields = owner.fields ++ [⟨program.fields.length⟩]) :
    DeclarationStep program (later.modifyClass type f) where
  names other hmem := by
    rw [typeIds_modifyClass, typeIds, htypes] at hmem
    exact .inl ⟨hmem, by rw [typeName_modifyClass, typeName, typeName, htypes]⟩
  classes other owner hfound := by
    have hclass : later.class? other = program.class? other := by rw [class?, class?, htypes]
    right
    obtain ⟨earlier, hearlier, rfl | ⟨-, rfl⟩⟩ := exists_of_class?_modifyClass hfound
    · exact ⟨_, hclass ▸ hearlier, .inl rfl, .inl rfl⟩
    · exact ⟨earlier, hclass ▸ hearlier, hmethods earlier, hfields earlier⟩

theorem setQuietInitializer (program : Program) (type : TypeId) (quiet : Bool) :
    DeclarationStep program (program.setQuietInitializer type quiet) := by
  refine modifyClass rfl type ?_ ?_
  · exact fun _ => .inl rfl
  · exact fun _ => .inl rfl

theorem addMethod (program : Program) (holder : TypeId) (name descriptor : String) (flags : AccessFlags) :
    DeclarationStep program (program.addMethod holder name descriptor flags).1 := by
  refine modifyClass ?_ holder ?_ ?_
  · rfl
  · exact fun _ => .inr rfl
  · exact fun _ => .inl rfl

theorem addField (program : Program) (holder : TypeId) (name descriptor : String) (flags : AccessFlags) :
    DeclarationStep program (program.addField holder name descriptor flags).1 := by
  refine modifyClass ?_ holder ?_ ?_
  · rfl
  · exact fun _ => .inl rfl
  · exact fun _ => .inr rfl

end DeclarationStep

/-! ### All declarations -/

/-- Types have different names, and classes list their members in ascending order. -/
structure Ordered (program : Program) : Prop where
  names : ∀ left ∈ program.typeIds, ∀ right ∈ program.typeIds, program.typeName left = program.typeName right →
    left = right
  methods : ∀ type owner, program.class? type = some owner → owner.methods.Pairwise (·.index < ·.index)
  fields : ∀ type owner, program.class? type = some owner → owner.fields.Pairwise (·.index < ·.index)

/-- A list that gets the newest member at its end stays ascending. -/
private theorem pairwise_of_newest {Id : Type} {index : Id → Nat} {listed earlier : List Id} {newest : Id}
    (h : earlier.Pairwise (index · < index ·)) (hbefore : ∀ id ∈ earlier, index id < index newest)
    (hlisted : listed = earlier ∨ listed = earlier ++ [newest]) : listed.Pairwise (index · < index ·) := by
  rcases hlisted with rfl | rfl
  · exact h
  · rw [List.pairwise_append]
    refine ⟨h, List.pairwise_singleton .., ?_⟩
    intro id hid last hlast
    rw [List.mem_singleton.1 hlast]
    exact hbefore id hid

theorem Ordered.step {before after : Program} (h : before.Ordered) (hcoherent : before.Coherent)
    (hlisted : before.FieldsListed) (hstep : DeclarationStep before after) : after.Ordered where
  names left hleft right hright heq := by
    rcases hstep.names left hleft with ⟨hknown, hname⟩ | ⟨rfl, hnew⟩
    · rcases hstep.names right hright with ⟨hknown', hname'⟩ | ⟨rfl, hnew⟩
      · rw [hname, hname'] at heq
        exact h.names left hknown right hknown' heq
      · exact absurd (hname.symm.trans heq) (hnew left hknown)
    · rcases hstep.names right hright with ⟨hknown', hname'⟩ | ⟨rfl, -⟩
      · exact absurd (hname'.symm.trans heq.symm) (hnew right hknown')
      · rfl
  methods type owner hfound := by
    rcases hstep.classes type owner hfound with ⟨hnil, -⟩ | ⟨earlier, hearlier, hmethods, -⟩
    · rw [hnil]
      exact .nil
    · refine pairwise_of_newest (h.methods type earlier hearlier) ?_ hmethods
      intro method hmethod
      obtain ⟨definition, hdefinition, -⟩ := hcoherent.method_listed type earlier hearlier method hmethod
      exact (List.getElem?_eq_some_iff.1 hdefinition).1
  fields type owner hfound := by
    rcases hstep.classes type owner hfound with ⟨-, hnil⟩ | ⟨earlier, hearlier, -, hfields⟩
    · rw [hnil]
      exact .nil
    · refine pairwise_of_newest (h.fields type earlier hearlier) ?_ hfields
      intro field hfield
      obtain ⟨definition, hdefinition, -⟩ := hlisted type earlier hearlier field hfield
      exact (List.getElem?_eq_some_iff.1 hdefinition).1

theorem Built.ordered (h : program.Built) : program.Ordered := by
  induction h with
  | empty => exact ⟨by simp [typeIds], by simp [class?], by simp [class?]⟩
  | typeRef name hbuilt ih => exact ih.step hbuilt.coherent hbuilt.fieldsListed (.typeRef _ name)
  | declareClass name kind flags superclass interfaces hbuilt ih =>
    exact ih.step hbuilt.coherent hbuilt.fieldsListed (.declareClass _ name kind flags superclass interfaces)
  | setQuietInitializer type quiet hbuilt ih =>
    exact ih.step hbuilt.coherent hbuilt.fieldsListed (.setQuietInitializer _ type quiet)
  | addMethod holder name descriptor flags hbuilt ih =>
    exact ih.step hbuilt.coherent hbuilt.fieldsListed (.addMethod _ holder name descriptor flags)
  | addField holder name descriptor flags hbuilt ih =>
    exact ih.step hbuilt.coherent hbuilt.fieldsListed (.addField _ holder name descriptor flags)
  | markFieldDead | putBody | removeBody | recordSummary | closeWorld | pinMethod | pinField =>
    next hbuilt ih => exact ih.step hbuilt.coherent hbuilt.fieldsListed (.of_types_eq rfl)
  | markProcessed method hbuilt ih =>
    rw [markProcessed_eq]
    exact ih.step hbuilt.coherent hbuilt.fieldsListed (.of_types_eq rfl)

/-! ### What follows for lookups -/

private theorem Ordered.lookupType?_eq_some_iff (h : program.Ordered) {name : String} {type : TypeId} :
    program.lookupType? name = some type ↔ type ∈ program.typeIds ∧ program.typeName type = name := by
  constructor
  · exact lookupType?_eq_some
  · rintro ⟨hmem, hname⟩
    cases hlookup : program.lookupType? name with
    | none => exact absurd hname (lookupType?_eq_none hlookup type hmem)
    | some found =>
      obtain ⟨hfound, hsame⟩ := lookupType?_eq_some hlookup
      rw [h.names found hfound type hmem (hsame.trans hname.symm)]

/-- The tables of types, methods and fields fit together. -/
structure TablesAgree (program : Program) : Prop where
  /-- Known types and their names determine each other. -/
  names : ∀ name type, program.lookupType? name = some type ↔ type ∈ program.typeIds ∧ program.typeName type = name
  class_id : ∀ type owner, program.class? type = some owner → owner.id = type
  method_id : ∀ method definition, program.method? method = some definition → definition.id = method
  field_id : ∀ field definition, program.field? field = some definition → definition.id = field
  methods_ascending : ∀ type owner, program.class? type = some owner → owner.methods.Pairwise (·.index < ·.index)
  fields_ascending : ∀ type owner, program.class? type = some owner → owner.fields.Pairwise (·.index < ·.index)
  method_holder : ∀ type owner, program.class? type = some owner → ∀ method ∈ owner.methods,
    ∃ definition, program.method? method = some definition ∧ definition.reference.holder = type
  field_holder : ∀ type owner, program.class? type = some owner → ∀ field ∈ owner.fields,
    ∃ definition, program.field? field = some definition ∧ definition.reference.holder = type
  /-- No method belongs to two classes. -/
  method_owner : ∀ type owner other another, program.class? type = some owner → program.class? other = some another →
    ∀ method ∈ owner.methods, method ∈ another.methods → type = other
  /-- No field belongs to two classes. -/
  field_owner : ∀ type owner other another, program.class? type = some owner → program.class? other = some another →
    ∀ field ∈ owner.fields, field ∈ another.fields → type = other
  programMethods_nodup : program.programMethods.Nodup
  programMethods_own : ∀ method ∈ program.programMethods,
    ∃ definition, program.method? method = some definition ∧ program.isProgramMethod definition = true

theorem Coherent.isProgramMethod_of_mem (h : program.Coherent) {method : MethodId}
    (hmem : method ∈ program.programMethods) :
    ∃ definition, program.method? method = some definition ∧ program.isProgramMethod definition = true := by
  obtain ⟨type, owner, howner, hprogram, hmethod⟩ := mem_programMethods.1 hmem
  obtain ⟨definition, hdefinition, rfl⟩ := h.method_listed type owner howner method hmethod
  refine ⟨definition, hdefinition, ?_⟩
  rw [isProgramMethod, isProgramType, howner]
  exact hprogram

/-- A member names one holder, so whatever lists it under its holder is one class. -/
private theorem holder_unique {Definition : Type} {found : Option Definition} {holder : Definition → TypeId}
    {type other : TypeId} (htype : ∃ definition, found = some definition ∧ holder definition = type)
    (hother : ∃ definition, found = some definition ∧ holder definition = other) : type = other := by
  obtain ⟨definition, hfound, hholder⟩ := htype
  obtain ⟨same, hsame, hholder'⟩ := hother
  obtain rfl : definition = same := Option.some.inj (hfound.symm.trans hsame)
  exact hholder.symm.trans hholder'

private theorem Built.tablesAgree (h : program.Built) : program.TablesAgree where
  names _ _ := h.ordered.lookupType?_eq_some_iff
  class_id := h.classesNamed
  method_id := h.coherent.method_id
  field_id := h.coherent.field_id
  methods_ascending := h.ordered.methods
  fields_ascending := h.ordered.fields
  method_holder := h.coherent.method_listed
  field_holder := h.fieldsListed
  method_owner type owner other another howner hanother method hleft hright :=
    holder_unique (h.coherent.method_listed type owner howner method hleft)
      (h.coherent.method_listed other another hanother method hright)
  field_owner type owner other another howner hanother field hleft hright :=
    holder_unique (h.fieldsListed type owner howner field hleft) (h.fieldsListed other another hanother field hright)
  programMethods_nodup := h.coherent.programMethods_nodup
  programMethods_own _ := h.coherent.isProgramMethod_of_mem

/-! ### Requests for static fields -/

/-- Serving a request is adding a static field, in place. -/
theorem run_serve (program : Program) (request : FieldRequest) :
    request.serve.run.run program
      = match program.addStaticField request.holder request.name request.descriptor request.flags with
        | .ok (later, field) => (.ok field, later)
        | .error error => (.error error, program) := by
  have hcheck : request.serve.run.run program
      = (if program.isProgramType request.holder = true then
          liftM (writeField
            (program.nextField request.holder request.name request.descriptor request.flags.withStatic))
        else throw (.foreignHolder request.name (program.typeName request.holder)) :
          ExceptT Error (StateM Program) FieldId).run.run program := rfl
  rw [hcheck, addStaticField]
  split
  · rfl
  · rfl

theorem Built.serve (h : program.Built) (request : FieldRequest) : (request.serve.run.run program).2.Built := by
  rw [run_serve, addStaticField]
  by_cases hprogram : program.isProgramType request.holder = true
  · rw [if_pos hprogram]
    exact h.addField request.holder request.name request.descriptor request.flags.withStatic
  · rw [if_neg hprogram]
    exact h

theorem Built.serveAll (h : program.Built) (requests : List FieldRequest) : (program.serveAll requests).Built := by
  induction requests generalizing program with
  | nil => exact h
  | cons request requests ih => exact ih (h.serve request)

/-- **Coherent tables.** Whatever was declared, in whatever order, and whatever static fields were asked for afterwards,
the tables of the program fit together. A request that cannot be granted leaves the program as it was; one that can leaves
the program with the field added. -/
theorem tables_agree_after_requests (h : program.Built) (requests : List FieldRequest) :
    (program.serveAll requests).TablesAgree ∧
    (∀ (request : FieldRequest) (error : Error),
      (program.serveAll requests).addStaticField request.holder request.name request.descriptor request.flags
        = .error error →
      request.serve.run.run (program.serveAll requests) = (.error error, program.serveAll requests)) ∧
    ∀ (request : FieldRequest) (later : Program) (field : FieldId),
      (program.serveAll requests).addStaticField request.holder request.name request.descriptor request.flags
        = .ok (later, field) →
      request.serve.run.run (program.serveAll requests) = (.ok field, later) := by
  refine ⟨(h.serveAll requests).tablesAgree, ?_, ?_⟩
  · intro request error hfails
    rw [run_serve, hfails]
  · intro request later field hadded
    rw [run_serve, hadded]

/-- A class that is named as a parent before it is declared, gets its first members before that too, and is declared
again after others; and a class outside the program. -/
def declaredAgain : Program :=
  let named := (({} : Program).typeRef "LBase;").1
  let early := (named.addMethod ⟨0⟩ "early" "()V" ⟨1⟩).1
  let derived := (early.declareClass "LDerived;" .program ⟨1⟩ (some ⟨0⟩) []).1
  let declared := (derived.declareClass "LBase;" .program ⟨1⟩ none []).1
  let members := ((declared.addMethod ⟨0⟩ "run" "()V" ⟨1⟩).1.addField ⟨0⟩ "x" "I" ⟨1⟩).1
  let again := (members.declareClass "LBase;" .program ⟨1⟩ none []).1
  let filled := ((again.addMethod ⟨0⟩ "run" "()V" ⟨1⟩).1.addMethod ⟨1⟩ "run" "()V" ⟨1⟩).1
  (filled.declareClass "LOutside;" .library ⟨1⟩ none []).1

private theorem declaredAgain_built : declaredAgain.Built :=
  .declareClass _ _ _ _ _ (.addMethod _ _ _ _ (.addMethod _ _ _ _ (.declareClass _ _ _ _ _ (.addField _ _ _ _
    (.addMethod _ _ _ _ (.declareClass _ _ _ _ _ (.declareClass _ _ _ _ _ (.addMethod _ _ _ _ (.typeRef _ .empty)))))))))

/-- A field for the class, and one for the class outside the program. -/
def twoRequests : List FieldRequest :=
  [⟨⟨0⟩, "$clinit", "I", ⟨1⟩⟩, ⟨⟨2⟩, "$clinit", "I", ⟨1⟩⟩]

/-- The first request was granted: the class lists the new field, which names it as its holder. The second was not. -/
theorem tables_agree_of_declaredAgain :
    let served := declaredAgain.serveAll twoRequests
    declaredAgain.Built ∧ served.TablesAgree ∧ served.programMethods = [⟨2⟩, ⟨3⟩] ∧
    (∃ owner, served.class? ⟨0⟩ = some owner ∧ owner.fields = [⟨1⟩]) ∧
    (∃ definition, served.field? ⟨1⟩ = some definition ∧ definition.id = ⟨1⟩ ∧
      definition.reference.holder = ⟨0⟩ ∧ definition.reference.name = "$clinit" ∧ definition.isStatic = true) ∧
    served.fields.length = 2 ∧ served.addStaticField ⟨2⟩ "x" "I" ⟨1⟩ = .error (.foreignHolder "x" "LOutside;") ∧
    (FieldRequest.mk ⟨2⟩ "x" "I" ⟨1⟩).serve.run.run served = (.error (.foreignHolder "x" "LOutside;"), served) := by
  intro served
  obtain ⟨hagree, hfails, -⟩ := tables_agree_after_requests declaredAgain_built twoRequests
  have hforeign : served.addStaticField ⟨2⟩ "x" "I" ⟨1⟩ = .error (.foreignHolder "x" "LOutside;") := by rfl
  have hlists : ∃ owner, served.class? ⟨0⟩ = some owner ∧ owner.fields = [⟨1⟩] := ⟨_, rfl, rfl⟩
  have hadded : ∃ definition, served.field? ⟨1⟩ = some definition ∧ definition.reference.name = "$clinit" ∧
      definition.isStatic = true := ⟨_, rfl, rfl, by decide⟩
  obtain ⟨definition, hfield, hname, hstatic⟩ := hadded
  refine ⟨declaredAgain_built, hagree, by decide, hlists, ⟨definition, hfield, ?_, ?_, hname, hstatic⟩, by decide,
    hforeign, hfails _ _ hforeign⟩
  · exact hagree.field_id ⟨1⟩ definition hfield
  · obtain ⟨owner, hclass, hfields⟩ := hlists
    obtain ⟨same, hsame, hholder⟩ := hagree.field_holder ⟨0⟩ owner hclass ⟨1⟩ (by rw [hfields]; decide)
    obtain rfl : definition = same := Option.some.inj (hfield.symm.trans hsame)
    exact hholder

end Bytecode.Program
