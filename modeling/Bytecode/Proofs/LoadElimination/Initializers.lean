import Bytecode.Proofs.LoadElimination.History
/-!
# Where a class initializer may run

A static access, an initialization check and an allocation may run the initializer of a class that is not known to be
initialized. What the sweep still knows afterwards depends on which of them it is. An allocation whose initialization has
effects and an access to a field that is not tracked leave only what is final. A tracked access and a check spoil what is
known of static fields and leave what is known of instances, although an initializer can write those as well. In either
case the visit goes on as if what was spoiled had never been known.
-/

namespace Bytecode.LoadElimination

namespace Facts

def clearNonFinalStatics (facts : Facts) : Facts :=
  { facts with fields := facts.fields.clearNonFinalStatics }

end Facts

namespace Scope

variable {scope : Scope} {body : Body} {facts later : Facts} {operation : Operation}

/-- The operation may run the initializer of a class that is not known to be initialized. -/
inductive MayInitialize (scope : Scope) (facts : Facts) : Operation → Prop
  | read {dest : ValueId} {reference : FieldRef} {definition : FieldDef}
      (hfield : scope.trackedField? reference true = some definition)
      (hfirst : scope.isInitialized facts definition.holder = false) : MayInitialize scope facts (.staticGet dest reference)
  | write {reference : FieldRef} {value : ValueId} {definition : FieldDef}
      (hfield : scope.trackedField? reference true = some definition)
      (hfirst : scope.isInitialized facts definition.holder = false) : MayInitialize scope facts (.staticPut reference value)
  | check {dest : ValueId} {type : TypeId} (hfirst : scope.isInitialized facts type = false) :
      MayInitialize scope facts (.initClass dest type)
  | allocate {dest : ValueId} {type : TypeId} (hfirst : type ∉ facts.initialized)
      (heffects : scope.program.initializationHasEffects type scope.holder = true) :
      MayInitialize scope facts (.newInstance dest type)
  | readUntracked {dest : ValueId} {reference : FieldRef} (hfield : scope.trackedField? reference true = none) :
      MayInitialize scope facts (.staticGet dest reference)
  | writeUntracked {reference : FieldRef} {value : ValueId} (hfield : scope.trackedField? reference true = none) :
      MayInitialize scope facts (.staticPut reference value)

/-- A static access to a tracked field, or a check: what is known of instances is not spoiled. -/
def sparesInstances (scope : Scope) : Operation → Bool
  | .staticGet _ reference | .staticPut reference _ => (scope.trackedField? reference true).isSome
  | .initClass .. => true
  | _ => false

/-- The facts that outlive the initializer. -/
def survivors (scope : Scope) (facts : Facts) (operation : Operation) : Facts :=
  if scope.sparesInstances operation then facts.clearNonFinalStatics else facts.clearNonFinal

private theorem survivors_staticGet {reference : FieldRef} {definition : FieldDef}
    (h : scope.trackedField? reference true = some definition) (facts : Facts) (dest : ValueId) :
    scope.survivors facts (.staticGet dest reference) = facts.clearNonFinalStatics := by
  rw [survivors, sparesInstances, h]
  rfl

private theorem survivors_staticPut {reference : FieldRef} {definition : FieldDef}
    (h : scope.trackedField? reference true = some definition) (facts : Facts) (value : ValueId) :
    scope.survivors facts (.staticPut reference value) = facts.clearNonFinalStatics := by
  rw [survivors, sparesInstances, h]
  rfl

private theorem survivors_staticGet_untracked {reference : FieldRef} (h : scope.trackedField? reference true = none)
    (facts : Facts) (dest : ValueId) : scope.survivors facts (.staticGet dest reference) = facts.clearNonFinal := by
  rw [survivors, sparesInstances, h]
  rfl

private theorem survivors_staticPut_untracked {reference : FieldRef} (h : scope.trackedField? reference true = none)
    (facts : Facts) (value : ValueId) : scope.survivors facts (.staticPut reference value) = facts.clearNonFinal := by
  rw [survivors, sparesInstances, h]
  rfl

/-- The static field that the operation makes known, and what it then holds. -/
def recordedStatic? (scope : Scope) : Operation → Option (FieldId × Known)
  | .staticGet dest reference => (scope.trackedField? reference true).map fun definition => (definition.id, .existing dest)
  | .staticPut reference value =>
    (scope.trackedField? reference true).map fun definition => (definition.id, .existing value)
  | _ => none

/-! ### One instruction -/

theorem touch_clearNonFinalStatics {type : TypeId} (h : scope.isInitialized facts type = false) :
    scope.touch facts.clearNonFinalStatics type = scope.touch facts type := by
  have hsame : scope.isInitialized facts.clearNonFinalStatics type = false := h
  rw [touch, touch, h, hsame]
  rfl

/-- What does not outlive the initializer makes no difference to the facts after the instruction. -/
theorem MayInitialize.after_survivors (h : scope.MayInitialize facts operation) (body : Body) :
    scope.after body (scope.survivors facts operation) operation = scope.after body facts operation := by
  cases h with
  | read hfield hfirst =>
    simp only [survivors_staticGet hfield, after, afterStaticGet, hfield, touch_clearNonFinalStatics hfirst]
  | write hfield hfirst =>
    simp only [survivors_staticPut hfield, after, afterStaticPut, hfield, touch_clearNonFinalStatics hfirst]
  | check hfirst => exact congrArg Except.ok (touch_clearNonFinalStatics hfirst)
  | @allocate dest type hfirst heffects =>
    have hagain : type ∉ facts.clearNonFinal.initialized := hfirst
    have hsurvivors : scope.survivors facts (.newInstance dest type) = facts.clearNonFinal := rfl
    simp only [hsurvivors, after, afterNewInstance, hagain, hfirst, heffects]
    rfl
  | readUntracked hfield =>
    simp only [survivors_staticGet_untracked hfield, after, afterStaticGet, hfield]
    rfl
  | writeUntracked hfield =>
    simp only [survivors_staticPut_untracked hfield, after, afterStaticPut, hfield]
    rfl

theorem fields_touch_of_first {type : TypeId} (h : scope.isInitialized facts type = false) :
    (scope.touch facts type).fields = facts.fields.clearNonFinalStatics := by
  rw [touch, fields_markInitialized, h]
  rfl

/-- The facts after the instruction are what outlives the initializer, with what the instruction itself makes known. -/
theorem MayInitialize.fields_after (h : scope.MayInitialize facts operation)
    (hafter : scope.after body facts operation = .ok later) :
    later.fields = (scope.survivors facts operation).fields ∨ ∃ isFinal field known,
      scope.recordedStatic? operation = some (field, known) ∧
        later.fields = (scope.survivors facts operation).fields.recordStatic isFinal field known := by
  obtain rfl : (scope.after body facts operation).toOption.getD {} = later := by
    rw [hafter]
    rfl
  cases h with
  | @read dest reference definition hfield hfirst =>
    rw [survivors_staticGet hfield, Facts.clearNonFinalStatics, ← fields_touch_of_first hfirst]
    show (scope.afterStaticGet body facts dest reference).fields = _ ∨ ∃ _ _ _, _ ∧
      (scope.afterStaticGet body facts dest reference).fields = _
    simp only [afterStaticGet, hfield]
    split
    · exact .inl rfl
    · exact .inr ⟨false, definition.id, .existing dest, by rw [recordedStatic?, hfield]; rfl, rfl⟩
  | @write reference value definition hfield hfirst =>
    rw [survivors_staticPut hfield, Facts.clearNonFinalStatics, ← fields_touch_of_first hfirst]
    show (scope.afterStaticPut facts reference value).fields = _ ∨ ∃ _ _ _, _ ∧
      (scope.afterStaticPut facts reference value).fields = _
    simp only [afterStaticPut, hfield]
    exact .inr ⟨definition.isFinal, definition.id, .existing value, by rw [recordedStatic?, hfield]; rfl, rfl⟩
  | check hfirst => exact .inl (fields_touch_of_first hfirst)
  | @allocate dest type hfirst heffects =>
    left
    show (scope.afterNewInstance facts type).fields = _
    rw [afterNewInstance, fields_markInitialized, heffects, decide_eq_true hfirst]
    rfl
  | @readUntracked dest reference hfield =>
    left
    show (scope.afterStaticGet body facts dest reference).fields = _
    rw [afterStaticGet, survivors_staticGet_untracked hfield, hfield]
  | @writeUntracked reference value hfield =>
    left
    show (scope.afterStaticPut facts reference value).fields = _
    rw [afterStaticPut, survivors_staticPut_untracked hfield, hfield]

/-! ### What is still known -/

private theorem instanceFact?_survivors (part : Bool) (field : FieldId) (object : ValueId) :
    (scope.survivors facts operation).fields.instanceFact? part field object
      = if part || scope.sparesInstances operation then facts.fields.instanceFact? part field object else none := by
  rw [survivors]
  cases scope.sparesInstances operation with
  | true => simp [Facts.clearNonFinalStatics]
  | false => simp [Facts.clearNonFinal]

private theorem staticFact?_survivors (part : Bool) (field : FieldId) :
    (scope.survivors facts operation).fields.staticFact? part field
      = if part then facts.fields.staticFact? part field else none := by
  rw [survivors]
  split
  · exact KnownFields.staticFact?_clearNonFinalStatics ..
  · exact KnownFields.staticFact?_clearNonFinal ..

private theorem MayInitialize.instanceFact?_after (h : scope.MayInitialize facts operation)
    (hafter : scope.after body facts operation = .ok later) (part : Bool) (field : FieldId) (object : ValueId) :
    later.fields.instanceFact? part field object
      = if part || scope.sparesInstances operation then facts.fields.instanceFact? part field object else none := by
  rw [← instanceFact?_survivors]
  rcases h.fields_after hafter with heq | ⟨isFinal, recorded, known, -, heq⟩
  · rw [heq]
  · rw [heq, KnownFields.instanceFact?_recordStatic]

/-- A static field is known afterwards only if it is final and was known before, or if the instruction records it. -/
theorem MayInitialize.staticFact?_after (h : scope.MayInitialize facts operation)
    (hafter : scope.after body facts operation = .ok later) {part : Bool} {field : FieldId} {known : Known}
    (hknown : later.fields.staticFact? part field = some known) :
    scope.recordedStatic? operation = some (field, known) ∨
      part = true ∧ facts.fields.staticFact? true field = some known := by
  have hold (h : (scope.survivors facts operation).fields.staticFact? part field = some known) :
      part = true ∧ facts.fields.staticFact? true field = some known := by
    rw [staticFact?_survivors] at h
    split at h
    case isTrue hpart => exact ⟨hpart, hpart ▸ h⟩
    case isFalse => cases h
  rcases h.fields_after hafter with heq | ⟨isFinal, recorded, value, hrecorded, heq⟩
  · exact .inr (hold (heq ▸ hknown))
  · rw [heq, KnownFields.staticFact?_recordStatic] at hknown
    split at hknown
    case isFalse => exact .inr (hold hknown)
    case isTrue hfield =>
      split at hknown
      · cases hknown
        exact .inl (hfield ▸ hrecorded)
      · cases hknown

/-- A final static field stays known unless the instruction records it anew. -/
theorem MayInitialize.finalStatic_after (h : scope.MayInitialize facts operation)
    (hafter : scope.after body facts operation = .ok later) {field : FieldId} {known : Known}
    (hknown : facts.fields.staticFact? true field = some known) :
    later.fields.staticFact? true field = some known ∨
      ∃ recorded, scope.recordedStatic? operation = some (field, recorded) := by
  have hold : (scope.survivors facts operation).fields.staticFact? true field = some known := by
    rw [staticFact?_survivors]
    exact hknown
  rcases h.fields_after hafter with heq | ⟨isFinal, recorded, value, hrecorded, heq⟩
  · exact .inl (heq ▸ hold)
  · by_cases hfield : field = recorded
    · exact .inr ⟨value, hfield ▸ hrecorded⟩
    · left
      rw [heq, KnownFields.staticFact?_recordStatic, if_neg hfield]
      exact hold

theorem MayInitialize.after_succeeds (h : scope.MayInitialize facts operation) (body : Body) :
    ∃ later, scope.after body facts operation = .ok later := by
  cases h <;> exact ⟨_, rfl⟩

end Scope

/-! ### The sweep -/

/-- At every stage constants come from summaries only. -/
theorem Reached.offered {scope : Scope} {original : Body} {done : List Nat} {sweep : Sweep} {stage : Stage}
    (h : Reached scope original done sweep stage) :
    match stage with
    | .between waiting => ∀ block facts, waiting.find? block = some facts → Offered scope facts
    | .within _ _ facts waiting =>
      Offered scope facts ∧ ∀ block facts, waiting.find? block = some facts → Offered scope facts := by
  induction h using Reached.induction with
  | start =>
    intro block facts hfound
    rw [Table.find?_empty] at hfound
    cases hfound
  | step _ hstep ih =>
    cases hstep with
    | @enter _ _ block _ _ _ =>
      refine ⟨.getD (ih block), fun other facts hfound => ?_⟩
      rw [Table.find?_erase] at hfound
      split at hfound
      · cases hfound
      · exact ih other facts hfound
    | keep _ _ hafter => exact ⟨ih.1.after hafter, ih.2⟩
    | eliminate => exact ih
    | leave =>
      intro other facts hfound
      rcases find?_propagate hfound with hbefore | ⟨target, -, -, -, rfl⟩
      · exact ih.2 other facts hbefore
      · exact Below.passedFacts ih.1 oneToOne_eq rfl (Instruction.map_mapUses_id target.instructions).symm
          (fun _ _ => matched_id _ _) other

/-- What stays with all facts stays with those that outlive the initializer. -/
theorem Offered.redundancy?_survivors {scope : Scope} {body : Body} {facts : Facts} {operation : Operation}
    (h : Offered scope facts) (hkept : scope.redundancy? body facts operation = none) :
    scope.redundancy? body (scope.survivors facts operation) operation = none := by
  have hbelow : Below scope Eq (scope.survivors facts operation) facts := by
    rw [Scope.survivors]
    split
    · exact ⟨h.fields.clearNonFinalStatics_left, h.initialized⟩
    · exact h.clearNonFinal_left
  have hnone := hbelow.redundancy?_eq_none oneToOne_eq (matched_id body operation) hkept
  rwa [show operation.mapOperands id = operation from Operation.mapOperands_eq_self fun _ _ => rfl] at hnone

/-- Where the initializer of a class may run, no fact on a static field that is not final outlives it, apart from the one
that the instruction records, and final facts do. Facts on instances that are not final are spoiled by an allocation and by
an access to an untracked field only. The visit of the block goes on as if what is spoiled had never been known, so
nothing later is replaced by it. -/
theorem initializer_spoils_static_facts (scope : Scope) (body : Body) (done : List Nat) (sweep : Sweep)
    (block position : Nat) (facts : Facts) (waiting : Waiting) (instruction : Instruction)
    (hreached : Reached scope body done sweep (.within block position facts waiting))
    (hinstruction : sweep.body.instruction? block position = some instruction)
    (hkept : scope.redundancy? sweep.body facts instruction.operation = none)
    (hinitializes : scope.MayInitialize facts instruction.operation) :
    (∃ later, Reached scope body done sweep (.within block (position + 1) later waiting) ∧
      (∀ part field object, later.fields.instanceFact? part field object
        = if part || scope.sparesInstances instruction.operation then facts.fields.instanceFact? part field object
          else none) ∧
      (∀ part field known, later.fields.staticFact? part field = some known →
        scope.recordedStatic? instruction.operation = some (field, known) ∨
          part = true ∧ facts.fields.staticFact? true field = some known) ∧
      ∀ field known, facts.fields.staticFact? true field = some known →
        later.fields.staticFact? true field = some known ∨
          ∃ recorded, scope.recordedStatic? instruction.operation = some (field, recorded)) ∧
    ∀ remaining, sweepBlock scope block (remaining + 1) position sweep facts
      = sweepBlock scope block (remaining + 1) position sweep (scope.survivors facts instruction.operation) := by
  obtain ⟨later, hafter⟩ := hinitializes.after_succeeds sweep.body
  refine ⟨⟨later, hreached.step (.keep hinstruction hkept hafter), hinitializes.instanceFact?_after hafter,
    fun _ _ _ => hinitializes.staticFact?_after hafter, fun _ _ => hinitializes.finalStatic_after hafter⟩, fun remaining => ?_⟩
  have hkept' := hreached.offered.1.redundancy?_survivors hkept
  have hafter' := hinitializes.after_survivors sweep.body
  simp only [sweepBlock, hinstruction, hkept, hkept', hafter']

/-- A method that reads the size of an object and the limit of its own class, checks that a class with an initializer is
initialized, and reads both again. -/
def readsAroundCheck : Program × Body :=
  let declared := ((({} : Program).declareClass "LA;" .program ⟨1⟩ none []).1.declareClass "LB;" .program ⟨1⟩ none []).1
  let withFields := ((declared.addField ⟨0⟩ "size" "I" ⟨1⟩).1.addField ⟨0⟩ "limit" "I" (AccessFlags.withStatic ⟨1⟩)).1
  let withMethod := (withFields.addMethod ⟨0⟩ "m" "(LA;)I" (AccessFlags.withStatic ⟨1⟩)).1
  let size : FieldRef := { holder := ⟨0⟩, name := "size", descriptor := "I" }
  let limit : FieldRef := { holder := ⟨0⟩, name := "limit", descriptor := "I" }
  ((withMethod.addMethod ⟨1⟩ "<clinit>" "()V" (AccessFlags.withStatic ⟨0⟩)).1,
    { method := ⟨0⟩
      values := List.replicate 7 {}
      blocks :=
        [{ instructions :=
            [{ operation := .argument ⟨0⟩ 0 }, { operation := .instanceGet ⟨1⟩ ⟨0⟩ size },
              { operation := .staticGet ⟨2⟩ limit }, { operation := .initClass ⟨3⟩ ⟨1⟩ },
              { operation := .instanceGet ⟨4⟩ ⟨0⟩ size }, { operation := .staticGet ⟨5⟩ limit },
              { operation := .binary ⟨6⟩ .add ⟨4⟩ ⟨5⟩ }, { operation := .return (some ⟨6⟩) }] }] })

/-- The scope of the method above. -/
def readsAroundCheckScope : Scope :=
  { program := readsAroundCheck.1, settings := {}, method := ⟨0⟩, holder := ⟨0⟩ }

/-- What is known before the check: the size and the limit. -/
def readsAroundCheckFacts : Facts :=
  { fields := (KnownFields.recordInstance {} false ⟨0⟩ ⟨0⟩ (.existing ⟨1⟩)).recordStatic false ⟨1⟩ (.existing ⟨2⟩)
    initialized := [⟨0⟩] }

private theorem readsAroundCheck_reached :
    Reached readsAroundCheckScope readsAroundCheck.2 [] { body := readsAroundCheck.2 }
      (.within 0 3 readsAroundCheckFacts .empty) := by
  have horder : visitOrder readsAroundCheck.2 = [] ++ 0 :: [] := by decide +kernel
  let size : Operation := .instanceGet ⟨1⟩ ⟨0⟩ { holder := ⟨0⟩, name := "size", descriptor := "I" }
  let limit : Operation := .staticGet ⟨2⟩ { holder := ⟨0⟩, name := "limit", descriptor := "I" }
  let sizeKnown : Facts := { fields := .recordInstance {} false ⟨0⟩ ⟨0⟩ (.existing ⟨1⟩) }
  have hsizeKept : readsAroundCheckScope.redundancy? readsAroundCheck.2 {} size = none := by decide +kernel
  have hsize : readsAroundCheckScope.after readsAroundCheck.2 {} size = .ok sizeKnown := by
    refine congrArg Except.ok ?_
    decide +kernel
  have hlimitKept : readsAroundCheckScope.redundancy? readsAroundCheck.2 sizeKnown limit = none := by decide +kernel
  have hlimit : readsAroundCheckScope.after readsAroundCheck.2 sizeKnown limit = .ok readsAroundCheckFacts := by
    refine congrArg Except.ok ?_
    decide +kernel
  exact (((Reached.start.step (.enter horder)).step (.keep rfl rfl rfl)).step (.keep rfl hsizeKept hsize)).step
    (.keep rfl hlimitKept hlimit)

private theorem readsAroundCheck_mayInitialize :
    readsAroundCheckScope.MayInitialize readsAroundCheckFacts (.initClass ⟨3⟩ ⟨1⟩) :=
  .check (by decide)

/-- After the check the limit is no longer known. -/
theorem initializer_spoils_static_facts_of_readsAroundCheck :
    ∃ later, Reached readsAroundCheckScope readsAroundCheck.2 [] { body := readsAroundCheck.2 }
        (.within 0 4 later .empty) ∧
      readsAroundCheckFacts.fields.staticFact? false ⟨1⟩ = some (.existing ⟨2⟩) ∧
      later.fields.staticFact? false ⟨1⟩ = none := by
  obtain ⟨⟨later, hreached, -, hstatic, -⟩, -⟩ := initializer_spoils_static_facts readsAroundCheckScope
    readsAroundCheck.2 [] { body := readsAroundCheck.2 } 0 3 readsAroundCheckFacts .empty _ readsAroundCheck_reached rfl
    rfl readsAroundCheck_mayInitialize
  refine ⟨later, hreached, by decide, ?_⟩
  cases hknown : later.fields.staticFact? false ⟨1⟩ with
  | none => rfl
  | some known =>
    rcases hstatic _ _ _ hknown with hrecorded | ⟨hfinal, -⟩
    · cases hrecorded
    · cases hfinal

/-- A method that reads the size of an object three times, with a read of a static field and a write of another between
them, whose classes have initializers. -/
def readsAroundAccesses : Program × Body :=
  let declared := ((({} : Program).declareClass "LA;" .program ⟨1⟩ none []).1.declareClass "LB;" .program ⟨1⟩ none []).1
  let withClasses := (declared.declareClass "LC;" .program ⟨1⟩ none []).1
  let withSize := (withClasses.addField ⟨0⟩ "size" "I" ⟨1⟩).1
  let withFields := ((withSize.addField ⟨1⟩ "limit" "I" (AccessFlags.withStatic ⟨1⟩)).1.addField ⟨2⟩ "limit" "I"
    (AccessFlags.withStatic ⟨1⟩)).1
  let withMethod := (withFields.addMethod ⟨0⟩ "m" "(LA;)I" (AccessFlags.withStatic ⟨1⟩)).1
  let withInitializer := (withMethod.addMethod ⟨1⟩ "<clinit>" "()V" (AccessFlags.withStatic ⟨0⟩)).1
  let size : FieldRef := { holder := ⟨0⟩, name := "size", descriptor := "I" }
  ((withInitializer.addMethod ⟨2⟩ "<clinit>" "()V" (AccessFlags.withStatic ⟨0⟩)).1,
    { method := ⟨0⟩
      values := List.replicate 6 {}
      blocks :=
        [{ instructions :=
            [{ operation := .argument ⟨0⟩ 0 }, { operation := .instanceGet ⟨1⟩ ⟨0⟩ size },
              { operation := .staticGet ⟨2⟩ { holder := ⟨1⟩, name := "limit", descriptor := "I" } },
              { operation := .instanceGet ⟨3⟩ ⟨0⟩ size },
              { operation := .staticPut { holder := ⟨2⟩, name := "limit", descriptor := "I" } ⟨2⟩ },
              { operation := .instanceGet ⟨4⟩ ⟨0⟩ size }, { operation := .binary ⟨5⟩ .add ⟨3⟩ ⟨4⟩ },
              { operation := .return (some ⟨5⟩) }] }] })

def readsAroundAccessesScope : Scope :=
  { program := readsAroundAccesses.1, settings := {}, method := ⟨0⟩, holder := ⟨0⟩ }

/-- What is known after the first read of the size. -/
def readsAroundAccessesFacts : Facts :=
  { fields := .recordInstance {} false ⟨0⟩ ⟨0⟩ (.existing ⟨1⟩) }

/-- What is known after the read of a static field. -/
def readsAroundAccessesRead : Facts :=
  readsAroundAccessesScope.afterStaticGet readsAroundAccesses.2 readsAroundAccessesFacts ⟨2⟩
    { holder := ⟨1⟩, name := "limit", descriptor := "I" }

/-- What is known after the write of the other. -/
def readsAroundAccessesWritten : Facts :=
  readsAroundAccessesScope.afterStaticPut readsAroundAccessesRead { holder := ⟨2⟩, name := "limit", descriptor := "I" } ⟨2⟩

private theorem readsAroundAccesses_read :
    Reached readsAroundAccessesScope readsAroundAccesses.2 [] { body := readsAroundAccesses.2 }
      (.within 0 3 readsAroundAccessesRead .empty) := by
  have horder : visitOrder readsAroundAccesses.2 = [] ++ 0 :: [] := by decide +kernel
  let size : Operation := .instanceGet ⟨1⟩ ⟨0⟩ { holder := ⟨0⟩, name := "size", descriptor := "I" }
  let limit : Operation := .staticGet ⟨2⟩ { holder := ⟨1⟩, name := "limit", descriptor := "I" }
  have hsizeKept : readsAroundAccessesScope.redundancy? readsAroundAccesses.2 {} size = none := by decide +kernel
  have hsize : readsAroundAccessesScope.after readsAroundAccesses.2 {} size = .ok readsAroundAccessesFacts := by
    refine congrArg Except.ok ?_
    decide +kernel
  have hlimitKept : readsAroundAccessesScope.redundancy? readsAroundAccesses.2 readsAroundAccessesFacts limit = none := by
    decide +kernel
  exact (((Reached.start.step (.enter horder)).step (.keep rfl rfl rfl)).step (.keep rfl hsizeKept hsize)).step
    (.keep rfl hlimitKept rfl)

private theorem readsAroundAccesses_written :
    ∃ sweep, Reached readsAroundAccessesScope readsAroundAccesses.2 [] sweep
      (.within 0 4 readsAroundAccessesWritten .empty) := by
  have hagain : readsAroundAccessesScope.redundancy? readsAroundAccesses.2 readsAroundAccessesRead
      (.instanceGet ⟨3⟩ ⟨0⟩ { holder := ⟨0⟩, name := "size", descriptor := "I" }) = some (.existingValue ⟨3⟩ ⟨1⟩) := by
    decide +kernel
  exact ⟨_, (readsAroundAccesses_read.step (.eliminate rfl hagain)).step (.keep rfl rfl rfl)⟩

private theorem readsAroundAccesses_mayInitialize :
    readsAroundAccessesScope.MayInitialize readsAroundAccessesFacts
        (.staticGet ⟨2⟩ { holder := ⟨1⟩, name := "limit", descriptor := "I" }) ∧
      readsAroundAccessesScope.MayInitialize readsAroundAccessesRead
        (.staticPut { holder := ⟨2⟩, name := "limit", descriptor := "I" } ⟨2⟩) := by
  have hread : ((readsAroundAccessesScope.trackedField? { holder := ⟨1⟩, name := "limit", descriptor := "I" } true).any
      fun definition => !readsAroundAccessesScope.isInitialized readsAroundAccessesFacts definition.holder) = true := by
    decide +kernel
  have hwritten : ((readsAroundAccessesScope.trackedField? { holder := ⟨2⟩, name := "limit", descriptor := "I" } true).any
      fun definition => !readsAroundAccessesScope.isInitialized readsAroundAccessesRead definition.holder) = true := by
    decide +kernel
  obtain ⟨_, hfield, hfirst⟩ := (Option.any_eq_true _ _).1 hread
  obtain ⟨_, hother, hsecond⟩ := (Option.any_eq_true _ _).1 hwritten
  exact ⟨.read hfield (Bool.not_eq_true' _ ▸ hfirst), .write hother (Bool.not_eq_true' _ ▸ hsecond)⟩

/-- The classes have initializers and may not be initialized yet, but the size is still known after the check, the read and
the write, and all later reads of it are replaced. -/
theorem size_known_after_initializer :
    (readsAroundCheck.1.mayRunInitializer ⟨1⟩ = true ∧
      readsAroundCheckScope.MayInitialize readsAroundCheckFacts (.initClass ⟨3⟩ ⟨1⟩) ∧
      ∃ later outcome stats, Reached readsAroundCheckScope readsAroundCheck.2 [] { body := readsAroundCheck.2 }
          (.within 0 4 later .empty) ∧
        readsAroundCheckFacts.fields.instanceFact? false ⟨0⟩ ⟨0⟩ = some (.existing ⟨1⟩) ∧
        later.fields.instanceFact? false ⟨0⟩ ⟨0⟩ = some (.existing ⟨1⟩) ∧
        runWithStats { program := readsAroundCheck.1, settings := {} } readsAroundCheck.2 = .ok (outcome, stats) ∧
        ({ operation := .binary ⟨6⟩ .add ⟨1⟩ ⟨5⟩ } : Instruction) ∈ outcome.body.instructions) ∧
    readsAroundAccesses.1.mayRunInitializer ⟨1⟩ = true ∧ readsAroundAccesses.1.mayRunInitializer ⟨2⟩ = true ∧
      readsAroundAccessesScope.MayInitialize readsAroundAccessesFacts
        (.staticGet ⟨2⟩ { holder := ⟨1⟩, name := "limit", descriptor := "I" }) ∧
      readsAroundAccessesScope.MayInitialize readsAroundAccessesRead
        (.staticPut { holder := ⟨2⟩, name := "limit", descriptor := "I" } ⟨2⟩) ∧
      Reached readsAroundAccessesScope readsAroundAccesses.2 [] { body := readsAroundAccesses.2 }
        (.within 0 3 readsAroundAccessesRead .empty) ∧
      (∃ sweep, Reached readsAroundAccessesScope readsAroundAccesses.2 [] sweep
        (.within 0 4 readsAroundAccessesWritten .empty)) ∧
      (∀ facts ∈ [readsAroundAccessesFacts, readsAroundAccessesRead, readsAroundAccessesWritten],
        facts.fields.instanceFact? false ⟨0⟩ ⟨0⟩ = some (.existing ⟨1⟩)) ∧
      (runWithStats { program := readsAroundAccesses.1, settings := {} } readsAroundAccesses.2).toOption.map
        (fun finished => finished.1.body.instructionsAt 0)
        = some [{ operation := .argument ⟨0⟩ 0 },
          { operation := .instanceGet ⟨1⟩ ⟨0⟩ { holder := ⟨0⟩, name := "size", descriptor := "I" } },
          { operation := .staticGet ⟨2⟩ { holder := ⟨1⟩, name := "limit", descriptor := "I" } },
          { operation := .staticPut { holder := ⟨2⟩, name := "limit", descriptor := "I" } ⟨2⟩ },
          { operation := .binary ⟨5⟩ .add ⟨1⟩ ⟨1⟩ }, { operation := .return (some ⟨5⟩) }] := by
  have hchecked : (runWithStats { program := readsAroundCheck.1, settings := {} } readsAroundCheck.2).toOption.map
      (fun finished => decide (({ operation := .binary ⟨6⟩ .add ⟨1⟩ ⟨5⟩ } : Instruction)
        ∈ finished.1.body.instructions)) = some true := by
    decide +kernel
  obtain ⟨⟨outcome, stats⟩, hrun, hreplaced⟩ := exists_of_toOption_map hchecked
  refine ⟨⟨by decide, readsAroundCheck_mayInitialize, _, outcome, stats,
    readsAroundCheck_reached.step (.keep rfl rfl rfl), rfl, rfl, hrun, of_decide_eq_true hreplaced⟩, ?_⟩
  refine ⟨by decide, by decide, readsAroundAccesses_mayInitialize.1, readsAroundAccesses_mayInitialize.2,
    readsAroundAccesses_read, readsAroundAccesses_written, ?_, ?_⟩
  · decide +kernel
  · decide +kernel

end Bytecode.LoadElimination
