import Bytecode.LoadElimination
import Bytecode.Proofs.Except
import Bytecode.Proofs.LoadElimination.KnownFields
/-!
# The values that facts mention

Facts say of a field that it holds a value of the body. What an instruction adds to the values mentioned in this way is
among its operands, or is its own result if it reads a field. An exceptional edge and everything that forgets facts add
nothing.
-/

namespace Bytecode.LoadElimination

/-- Some field is known to hold this value of the body. -/
def Mentions (fields : KnownFields) (value : ValueId) : Prop :=
  (∃ part field object, fields.instanceFact? part field object = some (.existing value)) ∨
    ∃ part field, fields.staticFact? part field = some (.existing value)

theorem not_mentions_empty (value : ValueId) : ¬Mentions {} value := by
  simp [Mentions]

theorem Mentions.of_instance? {fields : KnownFields} {field : FieldId} {object value : ValueId}
    (h : fields.instance? field object = some (.existing value)) : Mentions fields value := by
  rw [KnownFields.instance?_eq] at h
  rcases Option.or_eq_some_iff.1 h with hfound | ⟨-, hfound⟩
  · exact .inl ⟨false, field, object, hfound⟩
  · exact .inl ⟨true, field, object, hfound⟩

theorem Mentions.of_static? {fields : KnownFields} {field : FieldId} {value : ValueId}
    (h : fields.static? field = some (.existing value)) : Mentions fields value := by
  rw [KnownFields.static?_eq] at h
  rcases Option.or_eq_some_iff.1 h with hfound | ⟨-, hfound⟩
  · exact .inr ⟨false, field, hfound⟩
  · exact .inr ⟨true, field, hfound⟩

variable {fields : KnownFields} {value : ValueId}

theorem Mentions.of_recordInstance {isFinal : Bool} {field : FieldId} {object : ValueId} {known : Known}
    (h : Mentions (fields.recordInstance isFinal field object known) value) :
    Mentions fields value ∨ known = .existing value := by
  rcases h with ⟨part, other, receiver, hfact⟩ | ⟨part, other, hfact⟩
  · rw [KnownFields.instanceFact?_recordInstance] at hfact
    split at hfact
    · split at hfact
      · exact .inr (Option.some.inj hfact)
      · cases hfact
    · exact .inl (.inl ⟨part, other, receiver, hfact⟩)
  · rw [KnownFields.staticFact?_recordInstance] at hfact
    exact .inl (.inr ⟨part, other, hfact⟩)

theorem Mentions.of_recordStatic {isFinal : Bool} {field : FieldId} {known : Known}
    (h : Mentions (fields.recordStatic isFinal field known) value) :
    Mentions fields value ∨ known = .existing value := by
  rcases h with ⟨part, other, receiver, hfact⟩ | ⟨part, other, hfact⟩
  · rw [KnownFields.instanceFact?_recordStatic] at hfact
    exact .inl (.inl ⟨part, other, receiver, hfact⟩)
  · rw [KnownFields.staticFact?_recordStatic] at hfact
    split at hfact
    · split at hfact
      · exact .inr (Option.some.inj hfact)
      · cases hfact
    · exact .inl (.inr ⟨part, other, hfact⟩)

/-- Forgetting mentions nothing new. -/
theorem Mentions.mono {later : KnownFields} (h : Mentions later value)
    (hinstance : ∀ part field object known, later.instanceFact? part field object = some known →
      fields.instanceFact? part field object = some known)
    (hstatic : ∀ part field known, later.staticFact? part field = some known →
      fields.staticFact? part field = some known) : Mentions fields value := by
  rcases h with ⟨part, field, object, hfact⟩ | ⟨part, field, hfact⟩
  · exact .inl ⟨part, field, object, hinstance part field object _ hfact⟩
  · exact .inr ⟨part, field, hstatic part field _ hfact⟩

theorem Mentions.of_forgetInstance {field : FieldId} {object : ValueId}
    (h : Mentions (fields.forgetInstance field object) value) : Mentions fields value := by
  refine h.mono (fun part other receiver known hfact => ?_) fun part other known hfact => hfact
  rw [KnownFields.instanceFact?_forgetInstance] at hfact
  split at hfact
  · cases hfact
  · exact hfact

theorem Mentions.of_forgetNonFinalInstances {field : FieldId}
    (h : Mentions (fields.forgetNonFinalInstances field) value) : Mentions fields value := by
  refine h.mono (fun part other receiver known hfact => ?_) fun part other known hfact => hfact
  rw [KnownFields.instanceFact?_forgetNonFinalInstances] at hfact
  split at hfact
  · cases hfact
  · exact hfact

private theorem Mentions.of_forgetStatic {field : FieldId} (h : Mentions (fields.forgetStatic field) value) :
    Mentions fields value := by
  refine h.mono (fun part other receiver known hfact => hfact) fun part other known hfact => ?_
  rw [KnownFields.staticFact?_forgetStatic] at hfact
  split at hfact
  · cases hfact
  · exact hfact

theorem Mentions.of_clearNonFinal (h : Mentions fields.clearNonFinal value) : Mentions fields value := by
  refine h.mono (fun part other receiver known hfact => ?_) fun part other known hfact => ?_
  · rw [KnownFields.instanceFact?_clearNonFinal] at hfact
    cases part <;> simp_all
  · rw [KnownFields.staticFact?_clearNonFinal] at hfact
    cases part <;> simp_all

private theorem Mentions.of_clearNonFinalStatics (h : Mentions fields.clearNonFinalStatics value) :
    Mentions fields value := by
  refine h.mono (fun part other receiver known hfact => hfact) fun part other known hfact => ?_
  rw [KnownFields.staticFact?_clearNonFinalStatics] at hfact
  cases part <;> simp_all

/-! ### Instructions -/

namespace Scope

variable {scope : Scope} {body : Body} {facts later : Facts}

theorem fields_markInitialized (facts : Facts) (type : TypeId) : (facts.markInitialized type).fields = facts.fields := by
  unfold Facts.markInitialized
  split <;> rfl

theorem mentions_of_touch {type : TypeId} (h : Mentions (scope.touch facts type).fields value) :
    Mentions facts.fields value := by
  unfold touch at h
  rw [fields_markInitialized] at h
  split at h
  · exact h
  · exact h.of_clearNonFinalStatics

/-- A summary is used in whole programs only, and it is the program's. -/
theorem initializerSummary?_eq_some {kind : InvokeKind} {reference : MethodRef} {summary : InitializerSummary}
    (h : scope.initializerSummary? kind reference = some summary) :
    scope.settings.wholeProgram = true ∧ ∃ method, scope.program.summary? method = some summary := by
  unfold initializerSummary? at h
  split at h
  · rename_i hkind
    obtain ⟨target, -, htarget⟩ := Option.bind_eq_some_iff.1 h
    split at htarget
    · exact ⟨(Bool.and_eq_true _ _ ▸ hkind).2, target.id, htarget⟩
    · cases htarget
  · cases h

/-- What one initialized field does to the facts: older facts on it are spoiled, and its value may become known. -/
theorem afterFieldInitialization_cases {receiver : ValueId} {arguments : List ValueId} {fields later : KnownFields}
    {field : FieldId} {source : FieldInitialization}
    (h : scope.afterFieldInitialization receiver arguments fields (field, source) = .ok later) :
    ∃ definition, scope.program.field? field = some definition ∧
      (later = (fields.forgetNonFinalInstances field).forgetInstance field receiver ∨
        ∃ known, scope.program.mayPropagate definition = true ∧ scope.initialValue? arguments source = some known ∧
          later = ((fields.forgetNonFinalInstances field).forgetInstance field receiver).recordInstance
            definition.isFinal field receiver known) := by
  unfold afterFieldInitialization Program.field at h
  cases hfield : scope.program.field? field with
  | none => simp [hfield, bind, Except.bind] at h
  | some definition =>
    refine ⟨definition, rfl, ?_⟩
    simp only [hfield, bind, Except.bind] at h
    split at h
    · rename_i hpropagate
      split at h
      · rename_i known hknown
        exact .inr ⟨known, hpropagate, hknown, (Except.ok.inj h).symm⟩
      · exact .inl (Except.ok.inj h).symm
    · exact .inl (Except.ok.inj h).symm

private theorem mentions_of_afterFieldInitialization {receiver : ValueId} {arguments : List ValueId}
    {fields later : KnownFields} {entry : FieldId × FieldInitialization}
    (hafter : scope.afterFieldInitialization receiver arguments fields entry = .ok later)
    (h : Mentions later value) : Mentions fields value ∨ value ∈ arguments := by
  obtain ⟨field, source⟩ := entry
  obtain ⟨definition, -, rfl | ⟨known, -, hknown, rfl⟩⟩ := afterFieldInitialization_cases hafter
  · exact .inl h.of_forgetInstance.of_forgetNonFinalInstances
  · rcases h.of_recordInstance with hold | rfl
    · exact .inl hold.of_forgetInstance.of_forgetNonFinalInstances
    · cases source with
      | argument index =>
        obtain ⟨argument, hargument, hvalue⟩ := Option.map_eq_some_iff.1 hknown
        cases hvalue
        exact .inr (List.mem_of_getElem? hargument)
      | constant constant =>
        rw [initialValue?, Option.ite_none_right_eq_some] at hknown
        cases hknown.2

private theorem mentions_of_afterInvoke {kind : InvokeKind} {reference : MethodRef} {arguments : List ValueId}
    (hafter : scope.afterInvoke body facts kind reference arguments = .ok later)
    (h : Mentions later.fields value) : Mentions facts.fields value ∨ value ∈ arguments := by
  unfold afterInvoke at hafter
  split at hafter
  · rename_i summary receiver rest _
    simp only [bind, Except.bind] at hafter
    split at hafter
    · cases hafter
    · rename_i fields hfold
      obtain rfl := Except.ok.inj hafter
      have hstart : ∀ value, Mentions (if summary.hasOtherEffects then facts.clearNonFinal else facts).fields value →
          Mentions facts.fields value ∨ value ∈ receiver :: rest := by
        intro value hvalue
        split at hvalue
        · exact .inl hvalue.of_clearNonFinal
        · exact .inl hvalue
      refine foldlM_reaches (fun _ fields => ∀ value, Mentions fields value →
        Mentions facts.fields value ∨ value ∈ receiver :: rest) hfold hstart ?_ value h
      intro _ entry _ fields next _ hfields hentry value hvalue
      rcases mentions_of_afterFieldInitialization hentry hvalue with hold | hargument
      · exact hfields value hold
      · exact .inr hargument
  · obtain rfl := Except.ok.inj hafter
    exact .inl h.of_clearNonFinal

/-- What an instruction makes the facts mention is one of its operands, or the result of a read. -/
theorem mentions_of_after {operation : Operation} (hafter : scope.after body facts operation = .ok later)
    (h : Mentions later.fields value) :
    Mentions facts.fields value ∨ value ∈ operation.operands ∨
      operation.dest? = some value ∧ ∀ dest type, operation ≠ .initClass dest type := by
  cases operation
  case instanceGet dest object reference =>
    obtain rfl := Except.ok.inj hafter
    unfold afterInstanceGet at h
    split at h
    · exact .inl h.of_clearNonFinal
    · split at h
      · exact .inl h
      · rcases h.of_recordInstance with hold | hdest
        · exact .inl hold
        · cases hdest
          exact .inr (.inr ⟨rfl, fun _ _ => Operation.noConfusion⟩)
  case instancePut object reference written =>
    obtain rfl := Except.ok.inj hafter
    unfold afterInstancePut at h
    split at h
    · exact .inl h.of_clearNonFinal
    · rcases h.of_recordInstance with hold | hwritten
      · exact .inl hold.of_forgetNonFinalInstances
      · cases hwritten
        exact .inr (.inl (by simp [Operation.operands]))
  case staticGet dest reference =>
    obtain rfl := Except.ok.inj hafter
    unfold afterStaticGet at h
    split at h
    · exact .inl h.of_clearNonFinal
    · dsimp only at h
      split at h
      · exact .inl (mentions_of_touch h)
      · rcases h.of_recordStatic with hold | hdest
        · exact .inl (mentions_of_touch hold)
        · cases hdest
          exact .inr (.inr ⟨rfl, fun _ _ => Operation.noConfusion⟩)
  case staticPut reference written =>
    obtain rfl := Except.ok.inj hafter
    unfold afterStaticPut at h
    split at h
    · exact .inl h.of_clearNonFinal
    · rcases h.of_recordStatic with hold | hwritten
      · exact .inl (mentions_of_touch hold)
      · cases hwritten
        exact .inr (.inl (by simp [Operation.operands]))
  case initClass =>
    obtain rfl := Except.ok.inj hafter
    exact .inl (mentions_of_touch h)
  case newInstance =>
    obtain rfl := Except.ok.inj hafter
    unfold afterNewInstance at h
    rw [fields_markInitialized] at h
    split at h
    · exact .inl h.of_clearNonFinal
    · exact .inl h
  case invoke =>
    exact (mentions_of_afterInvoke hafter h).imp_right .inl
  case invokeCustom | monitorEnter =>
    obtain rfl := Except.ok.inj hafter
    exact .inl h.of_clearNonFinal
  all_goals
    obtain rfl := Except.ok.inj hafter
    exact .inl h

private theorem mentions_of_withoutEffectOf {operation : Operation}
    (h : Mentions (scope.withoutEffectOf body facts operation).fields value) : Mentions facts.fields value := by
  unfold withoutEffectOf at h
  repeat' split at h
  all_goals first | exact h | exact h.of_forgetInstance | exact h.of_forgetStatic

end Scope

theorem mentions_of_passedFacts {scope : Scope} {body : Body} {block : Block} {facts : Facts} {successor : Nat}
    (h : Mentions (passedFacts scope body block facts successor).fields value) : Mentions facts.fields value := by
  unfold passedFacts at h
  split at h
  · exact h
  · split at h
    · exact absurd h (not_mentions_empty value)
    · split at h
      · exact Scope.mentions_of_withoutEffectOf h
      · exact h

end Bytecode.LoadElimination
