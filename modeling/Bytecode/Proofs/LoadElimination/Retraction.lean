import Bytecode.Proofs.LoadElimination.Idempotence
/-!
# Taking back the effect of an instruction

Along an exceptional edge the sweep takes back what the instruction that throws would have established. What is left was
known before the instruction, with two exceptions. What a call makes known of its receiver, according to the summary of an
initializer, is not taken back. And the receiver of a field access may have been renamed since the access was visited, so
that what is taken back is a fact on another object.
-/

namespace Bytecode.LoadElimination

/-- What is known at the start was known before, apart from facts on instances that may have been added. -/
structure OnlyAdds (added : FieldId → ValueId → Prop) (known start : Facts) : Prop where
  initialized : ∀ type ∈ start.initialized, type ∈ known.initialized
  statics : ∀ part field value, start.fields.staticFact? part field = some value →
    known.fields.staticFact? part field = some value
  instances : ∀ part field object value, start.fields.instanceFact? part field object = some value →
    known.fields.instanceFact? part field object = some value ∨ added field object

namespace OnlyAdds

variable {added : FieldId → ValueId → Prop} {known start : Facts}

theorem refl (known : Facts) : OnlyAdds added known known :=
  ⟨fun _ => id, fun _ _ _ => id, fun _ _ _ _ => .inl⟩

theorem empty (known : Facts) : OnlyAdds added known {} := by
  refine ⟨fun _ htype => absurd htype List.not_mem_nil, fun part field value hvalue => ?_,
    fun part field object value hvalue => ?_⟩
  · rw [KnownFields.staticFact?_empty] at hvalue
    cases hvalue
  · rw [KnownFields.instanceFact?_empty] at hvalue
    cases hvalue

theorem mono (h : OnlyAdds added known start) {more : FieldId → ValueId → Prop}
    (hmore : ∀ field object, added field object → more field object) : OnlyAdds more known start :=
  ⟨h.initialized, h.statics, fun part field object value hvalue =>
    (h.instances part field object value hvalue).imp_right (hmore field object)⟩

theorem clearNonFinal (h : OnlyAdds added known start) : OnlyAdds added known start.clearNonFinal := by
  refine ⟨h.initialized, fun part field value hvalue => ?_, fun part field object value hvalue => ?_⟩
  · rw [Facts.clearNonFinal, KnownFields.staticFact?_clearNonFinal, Option.ite_none_right_eq_some] at hvalue
    exact h.statics part field value hvalue.2
  · rw [Facts.clearNonFinal, KnownFields.instanceFact?_clearNonFinal, Option.ite_none_right_eq_some] at hvalue
    exact h.instances part field object value hvalue.2

theorem clearNonFinalStatics (h : OnlyAdds added known start) :
    OnlyAdds added known { start with fields := start.fields.clearNonFinalStatics } := by
  refine ⟨h.initialized, fun part field value hvalue => ?_, h.instances⟩
  rw [KnownFields.staticFact?_clearNonFinalStatics, Option.ite_none_right_eq_some] at hvalue
  exact h.statics part field value hvalue.2

theorem forgetNonFinalInstances (h : OnlyAdds added known start) (field : FieldId) :
    OnlyAdds added known { start with fields := start.fields.forgetNonFinalInstances field } := by
  refine ⟨h.initialized, h.statics, fun part other object value hvalue => ?_⟩
  rw [KnownFields.instanceFact?_forgetNonFinalInstances, Option.ite_none_left_eq_some] at hvalue
  exact h.instances part other object value hvalue.2

/-- Forgetting a field on one receiver leaves what was added on others. -/
theorem forgetInstance (h : OnlyAdds added known start) (field : FieldId) (object : ValueId) :
    OnlyAdds (fun other receiver => added other receiver ∧ ¬(other = field ∧ receiver = object)) known
      { start with fields := start.fields.forgetInstance field object } := by
  refine ⟨h.initialized, h.statics, fun part other receiver value hvalue => ?_⟩
  rw [KnownFields.instanceFact?_forgetInstance, Option.ite_none_left_eq_some] at hvalue
  exact (h.instances part other receiver value hvalue.2).imp_right fun hadded => ⟨hadded, hvalue.1⟩

theorem recordInstance (h : OnlyAdds added known start) {field : FieldId} {object : ValueId} (hadded : added field object)
    (isFinal : Bool) (value : Known) :
    OnlyAdds added known { start with fields := start.fields.recordInstance isFinal field object value } := by
  refine ⟨h.initialized, fun part other found hfound => ?_, fun part other receiver found hfound => ?_⟩
  · rw [KnownFields.staticFact?_recordInstance] at hfound
    exact h.statics part other found hfound
  · rw [KnownFields.instanceFact?_recordInstance] at hfound
    split at hfound
    case isTrue hsame => exact .inr (hsame.1 ▸ hsame.2 ▸ hadded)
    case isFalse => exact h.instances part other receiver found hfound

theorem forgetStatic (h : OnlyAdds added known start) (field : FieldId) :
    OnlyAdds added known { start with fields := start.fields.forgetStatic field } := by
  refine ⟨h.initialized, fun part other value hvalue => ?_, h.instances⟩
  rw [KnownFields.staticFact?_forgetStatic, Option.ite_none_left_eq_some] at hvalue
  exact h.statics part other value hvalue.2

/-- A static field that is recorded and then forgotten leaves nothing new. -/
theorem forgetStatic_recordStatic (h : OnlyAdds added known start) (isFinal : Bool) (field : FieldId) (value : Known) :
    OnlyAdds added known { start with fields := (start.fields.recordStatic isFinal field value).forgetStatic field } := by
  refine ⟨h.initialized, fun part other found hfound => ?_, fun part other object found hfound => ?_⟩
  · rw [KnownFields.staticFact?_forgetStatic, Option.ite_none_left_eq_some, KnownFields.staticFact?_recordStatic] at hfound
    rw [if_neg hfound.1] at hfound
    exact h.statics part other found hfound.2
  · rw [KnownFields.instanceFact?_forgetStatic, KnownFields.instanceFact?_recordStatic] at hfound
    exact h.instances part other object found hfound

/-- A mark that is taken back leaves nothing new. -/
theorem unmark (h : OnlyAdds added known start) (type : TypeId) :
    OnlyAdds added known ((start.markInitialized type).unmarkInitialized type) :=
  ⟨fun other hother => h.initialized other (mem_initialized_of_unmark hother),
    fun part field value hvalue => h.statics part field value (Scope.fields_markInitialized start type ▸ hvalue),
    fun part field object value hvalue =>
      h.instances part field object value (Scope.fields_markInitialized start type ▸ hvalue)⟩

end OnlyAdds

/-! ### One instruction -/

namespace Scope

variable {scope : Scope} {body : Body} {known later : Facts}

/-- The tracked field of an instance that the operation reads or writes. -/
def accessedField? (scope : Scope) : Operation → Option FieldId
  | .instanceGet _ _ reference | .instancePut _ reference _ => (scope.trackedField? reference false).map (·.id)
  | _ => none

/-- The fields that the operation sets on its receiver according to a summary. -/
def initializedFields (scope : Scope) : Operation → List FieldId
  | .invoke _ kind reference (_ :: _) =>
    ((scope.initializerSummary? kind reference).map fun summary => summary.fields.map (·.1)).getD []
  | _ => []

theorem accessedField?_mapOperands (operation : Operation) (rename : ValueId → ValueId) :
    scope.accessedField? (operation.mapOperands rename) = scope.accessedField? operation := by
  cases operation <;> rfl

theorem initializedFields_mapOperands (operation : Operation) (rename : ValueId → ValueId) :
    scope.initializedFields (operation.mapOperands rename) = scope.initializedFields operation := by
  cases operation with
  | invoke dest kind reference arguments =>
    rw [Operation.mapOperands_invoke]
    cases arguments <;> rfl
  | _ => rfl

/-- What a read or a write of a tracked field makes known is a fact on its receiver. -/
theorem onlyAdds_of_access {operation : Operation} {field : FieldId} {object : ValueId}
    (hfield : scope.accessedField? operation = some field) (hobject : operation.receiver? = some object)
    (hafter : scope.after body known operation = .ok later) :
    OnlyAdds (fun other receiver => other = field ∧ receiver = body.aliasRoot object) known later := by
  cases operation with
  | instanceGet dest receiver reference =>
    obtain ⟨definition, hdefinition, rfl⟩ := Option.map_eq_some_iff.1 hfield
    obtain rfl := Option.some.inj hobject
    obtain rfl := Except.ok.inj hafter
    simp only [afterInstanceGet, hdefinition]
    split
    · exact .refl known
    · exact OnlyAdds.recordInstance (.refl known) ⟨rfl, rfl⟩ _ _
  | instancePut receiver reference value =>
    obtain ⟨definition, hdefinition, rfl⟩ := Option.map_eq_some_iff.1 hfield
    obtain rfl := Option.some.inj hobject
    obtain rfl := Except.ok.inj hafter
    simp only [afterInstancePut, hdefinition]
    exact OnlyAdds.recordInstance (.forgetNonFinalInstances (.refl known) _) ⟨rfl, rfl⟩ _ _
  | _ => cases hfield

/-- What a call makes known are the fields of its receiver that a summary names. -/
theorem onlyAdds_of_invoke {dest : Option ValueId} {kind : InvokeKind} {reference : MethodRef}
    {arguments : List ValueId} (hafter : scope.after body known (.invoke dest kind reference arguments) = .ok later) :
    OnlyAdds (fun field object => field ∈ scope.initializedFields (.invoke dest kind reference arguments) ∧
      (Operation.invoke dest kind reference arguments).receiver?.map body.aliasRoot = some object) known later := by
  change scope.afterInvoke body known kind reference arguments = .ok later at hafter
  rw [afterInvoke.eq_def] at hafter
  split at hafter
  case h_1 summary receiver rest hsummary =>
    obtain ⟨fields, hfold, hlater⟩ := exists_of_bind_eq_ok hafter
    obtain rfl := Except.ok.inj hlater
    have hnames : scope.initializedFields (.invoke dest kind reference (receiver :: rest))
        = summary.fields.map (·.1) := by
      rw [initializedFields, hsummary]
      rfl
    rw [hnames]
    refine foldlM_reaches (fun _ fields => OnlyAdds _ known
      { (if summary.hasOtherEffects then known.clearNonFinal else known) with fields }) hfold ?_ ?_
    · split
      · exact OnlyAdds.clearNonFinal (.refl known)
      · exact .refl known
    · rintro _ ⟨field, source⟩ _ state next hentries hstate hnext
      have hadded : field ∈ summary.fields.map (·.1) := by
        rw [hentries]
        simp
      have hspoiled := ((hstate.forgetNonFinalInstances field).forgetInstance field (body.aliasRoot receiver)).mono
        fun _ _ hold => hold.1
      obtain ⟨definition, -, rfl | ⟨value, -, -, rfl⟩⟩ := afterFieldInitialization_cases hnext
      · exact hspoiled
      · exact hspoiled.recordInstance ⟨hadded, rfl⟩ definition.isFinal value
  case h_2 =>
    obtain rfl := Except.ok.inj hafter
    exact OnlyAdds.clearNonFinal (.refl known)

theorem onlyAdds_touch (scope : Scope) (added : FieldId → ValueId → Prop) (known : Facts) (type : TypeId) :
    OnlyAdds added known ((scope.touch known type).unmarkInitialized type) := by
  rw [touch]
  split
  · exact OnlyAdds.unmark (.refl known) type
  · exact OnlyAdds.unmark (.clearNonFinalStatics (.refl known)) type

/-- Taking back a read or a write of a tracked field forgets the field on its receiver. -/
theorem withoutEffectOf_of_access {operation : Operation} {field : FieldId} {object : ValueId}
    (hfield : scope.accessedField? operation = some field) (hobject : operation.receiver? = some object) (facts : Facts) :
    scope.withoutEffectOf body facts operation
      = { facts with fields := facts.fields.forgetInstance field (body.aliasRoot object) } := by
  cases operation with
  | instanceGet | instancePut =>
    obtain ⟨definition, hdefinition, rfl⟩ := Option.map_eq_some_iff.1 hfield
    obtain rfl := Option.some.inj hobject
    simp only [withoutEffectOf, hdefinition]
  | _ => cases hfield

private theorem exists_receiver_of_access {operation : Operation} {field : FieldId}
    (hfield : scope.accessedField? operation = some field) : ∃ object, operation.receiver? = some object := by
  cases operation with
  | instanceGet | instancePut => exact ⟨_, rfl⟩
  | _ => cases hfield

/-- Taking back the effect of an instruction that had none leaves nothing new. -/
theorem onlyAdds_withoutEffectOf_self (scope : Scope) (body : Body) (known : Facts) (operation : Operation)
    {added : FieldId → ValueId → Prop} : OnlyAdds added known (scope.withoutEffectOf body known operation) := by
  have hunmark : ∀ type, OnlyAdds added known (known.unmarkInitialized type) := fun type =>
    ⟨fun _ hother => List.mem_of_mem_filter hother, fun _ _ _ => id, fun _ _ _ _ => .inl⟩
  cases operation
  case instanceGet | instancePut =>
    simp only [withoutEffectOf]
    split
    · exact .refl known
    · exact (OnlyAdds.forgetInstance (.refl known) _ _).mono fun _ _ hold => hold.1
  case staticGet | staticPut =>
    simp only [withoutEffectOf]
    split
    · exact .refl known
    · exact (hunmark _).forgetStatic _
  case initClass | newInstance => exact hunmark _
  all_goals exact .refl known

/-- Taking back the effect of an instruction whose operands may have been renamed leaves nothing new, apart from what a
summary says of the receiver and from a field access whose receiver now counts as another object. -/
theorem onlyAdds_withoutEffectOf {operation : Operation} (hafter : scope.after body known operation = .ok later)
    (rename : ValueId → ValueId) :
    OnlyAdds (fun field object => operation.receiver?.map body.aliasRoot = some object ∧
      (field ∈ scope.initializedFields operation ∨ scope.accessedField? operation = some field ∧
        (operation.mapOperands rename).receiver?.map body.aliasRoot ≠ some object)) known
      (scope.withoutEffectOf body later (operation.mapOperands rename)) := by
  cases haccessed : scope.accessedField? operation with
  | some field =>
    obtain ⟨object, hobject⟩ := exists_receiver_of_access haccessed
    have hrenamed : (operation.mapOperands rename).receiver? = some (rename object) := by
      rw [Operation.receiver?_mapOperands, hobject]
      rfl
    rw [withoutEffectOf_of_access ((accessedField?_mapOperands operation rename).trans haccessed) hrenamed]
    refine ((onlyAdds_of_access haccessed hobject hafter).forgetInstance field (body.aliasRoot (rename object))).mono ?_
    rintro other receiver ⟨⟨hfield, hreceiver⟩, hother⟩
    rw [hobject, hrenamed, hfield, hreceiver]
    refine ⟨rfl, .inr ⟨rfl, fun hsame => hother ⟨hfield, ?_⟩⟩⟩
    exact hreceiver.trans (Option.some.inj hsame).symm
  | none =>
    cases operation with
    | instanceGet dest object reference =>
      have hfield := Option.map_eq_none_iff.1 haccessed
      obtain rfl := Except.ok.inj hafter
      simp only [Operation.mapOperands_instanceGet, withoutEffectOf, afterInstanceGet, hfield]
      exact .clearNonFinal (.refl known)
    | instancePut object reference value =>
      have hfield := Option.map_eq_none_iff.1 haccessed
      obtain rfl := Except.ok.inj hafter
      simp only [Operation.mapOperands_instancePut, withoutEffectOf, afterInstancePut, hfield]
      exact .clearNonFinal (.refl known)
    | staticGet dest reference =>
      obtain rfl := Except.ok.inj hafter
      cases hfield : scope.trackedField? reference true with
      | none =>
        simp only [Operation.mapOperands_staticGet, withoutEffectOf, afterStaticGet, hfield]
        exact .clearNonFinal (.refl known)
      | some definition =>
        have htouched := onlyAdds_touch scope (fun _ _ => False) known definition.holder
        simp only [Operation.mapOperands_staticGet, withoutEffectOf, afterStaticGet, hfield]
        split
        · exact (htouched.forgetStatic definition.id).mono fun _ _ => False.elim
        · exact (htouched.forgetStatic_recordStatic false definition.id _).mono fun _ _ => False.elim
    | staticPut reference value =>
      obtain rfl := Except.ok.inj hafter
      cases hfield : scope.trackedField? reference true with
      | none =>
        simp only [Operation.mapOperands_staticPut, withoutEffectOf, afterStaticPut, hfield]
        exact .clearNonFinal (.refl known)
      | some definition =>
        have htouched := onlyAdds_touch scope (fun _ _ => False) known definition.holder
        simp only [Operation.mapOperands_staticPut, withoutEffectOf, afterStaticPut, hfield]
        exact (htouched.forgetStatic_recordStatic definition.isFinal definition.id _).mono fun _ _ => False.elim
    | initClass dest type =>
      obtain rfl := Except.ok.inj hafter
      exact onlyAdds_touch scope _ known type
    | newInstance dest type =>
      obtain rfl := Except.ok.inj hafter
      show OnlyAdds _ known ((scope.afterNewInstance known type).unmarkInitialized type)
      rw [afterNewInstance]
      split
      · exact OnlyAdds.unmark (.clearNonFinal (.refl known)) type
      · exact OnlyAdds.unmark (.refl known) type
    | invoke dest kind reference arguments =>
      refine (onlyAdds_of_invoke hafter).mono ?_
      rintro field object ⟨hfield, hobject⟩
      exact ⟨hobject, .inl hfield⟩
    | invokeCustom | monitorEnter =>
      obtain rfl := Except.ok.inj hafter
      exact .clearNonFinal (.refl known)
    | _ =>
      obtain rfl := Except.ok.inj hafter
      exact .refl known

end Scope

end Bytecode.LoadElimination
