import Bytecode.Proofs.LoadElimination.KnownFields
import Bytecode.Proofs.LoadElimination.Sweep
/-!
# Knowing less

Two sweeps are compared whose instructions differ in the names of operands. Their receivers correspond one to one, and
what the one sweep knows of a receiver the other knows of the corresponding receiver, in the same part of its facts. This
is kept by every instruction that both leave in place, and whatever the sweep that knows more does not find redundant the
other does not either.

For the second it matters that every known value can be used. Constants come from summaries only and are recorded only
if they can be created, and a static field is never known to hold a constant.
-/

namespace Bytecode

/-- The object whose fields the operation reads, writes or initializes. -/
def Operation.receiver? : Operation → Option ValueId
  | .instanceGet _ object _ => some object
  | .instancePut object _ _ => some object
  | .invoke _ _ _ (receiver :: _) => some receiver
  | _ => none

theorem Operation.receiver?_mapOperands (operation : Operation) (rename : ValueId → ValueId) :
    (operation.mapOperands rename).receiver? = operation.receiver?.map rename := by
  cases operation
  case invoke dest kind reference arguments =>
    rw [mapOperands_invoke]
    cases arguments <;> rfl
  all_goals rfl

namespace LoadElimination

/-- A summary of the program says so of the field. -/
def Scope.Lists (scope : Scope) (entry : FieldId × FieldInitialization) : Prop :=
  ∃ method summary, scope.program.summary? method = some summary ∧ entry ∈ summary.fields

/-- A field is said to hold the constant, which can be created here. -/
def Scope.Offers (scope : Scope) (constant : Constant) : Prop :=
  scope.program.isMaterializable constant scope.holder = true ∧ ∃ field, scope.Lists (field, .constant constant)

/-- Receivers correspond one to one. -/
def OneToOne (corresponds : ValueId → ValueId → Prop) : Prop :=
  ∀ left left' right right', corresponds left left' → corresponds right right' → (left = right ↔ left' = right')

/-- What is known of a receiver in `less` is known of the corresponding one in `more`, and all that is known in `more` can
be used. -/
structure FieldsBelow (scope : Scope) (corresponds : ValueId → ValueId → Prop) (less more : KnownFields) : Prop where
  instances : ∀ part field receiver, (less.instanceFact? part field receiver).isSome = true →
    ∃ origin, corresponds origin receiver ∧ (more.instanceFact? part field origin).isSome = true
  statics : ∀ part field, (less.staticFact? part field).isSome = true → (more.staticFact? part field).isSome = true
  offered : ∀ part field origin constant, more.instanceFact? part field origin = some (.constant constant) →
    scope.Offers constant
  existing : ∀ part field constant, more.staticFact? part field ≠ some (.constant constant)

/-- The first facts are known to the second. -/
structure Below (scope : Scope) (corresponds : ValueId → ValueId → Prop) (less more : Facts) : Prop where
  fields : FieldsBelow scope corresponds less.fields more.fields
  initialized : less.initialized ⊆ more.initialized

variable {scope : Scope} {corresponds : ValueId → ValueId → Prop}

namespace FieldsBelow

variable {less more : KnownFields}

theorem empty : FieldsBelow scope corresponds {} {} := by
  constructor <;> simp

/-- To know even less. -/
theorem mono {least : KnownFields} (h : FieldsBelow scope corresponds less more)
    (hinstances : ∀ part field receiver, (least.instanceFact? part field receiver).isSome = true →
      (less.instanceFact? part field receiver).isSome = true)
    (hstatics : ∀ part field, (least.staticFact? part field).isSome = true →
      (less.staticFact? part field).isSome = true) : FieldsBelow scope corresponds least more where
  instances part field receiver hknown := h.instances part field receiver (hinstances part field receiver hknown)
  statics part field hknown := h.statics part field (hstatics part field hknown)
  offered := h.offered
  existing := h.existing

theorem clearNonFinal_left (h : FieldsBelow scope corresponds less more) :
    FieldsBelow scope corresponds less.clearNonFinal more := by
  refine h.mono (fun part field receiver hknown => ?_) fun part field hknown => ?_
  · rw [KnownFields.instanceFact?_clearNonFinal] at hknown
    split at hknown
    · exact hknown
    · cases hknown
  · rw [KnownFields.staticFact?_clearNonFinal] at hknown
    split at hknown
    · exact hknown
    · cases hknown

theorem clearNonFinalStatics_left (h : FieldsBelow scope corresponds less more) :
    FieldsBelow scope corresponds less.clearNonFinalStatics more := by
  refine h.mono (fun part field receiver hknown => hknown) fun part field hknown => ?_
  rw [KnownFields.staticFact?_clearNonFinalStatics] at hknown
  split at hknown
  · exact hknown
  · cases hknown

theorem clearNonFinalStatics (h : FieldsBelow scope corresponds less more) :
    FieldsBelow scope corresponds less.clearNonFinalStatics more.clearNonFinalStatics where
  instances := h.instances
  statics part field hknown := by
    rw [KnownFields.staticFact?_clearNonFinalStatics] at hknown ⊢
    cases part with
    | true => exact h.statics true field hknown
    | false => cases hknown
  offered := h.offered
  existing part field constant hknown := by
    rw [KnownFields.staticFact?_clearNonFinalStatics] at hknown
    split at hknown
    · exact h.existing part field constant hknown
    · cases hknown

theorem clearNonFinal (h : FieldsBelow scope corresponds less more) :
    FieldsBelow scope corresponds less.clearNonFinal more.clearNonFinal where
  instances part field receiver hknown := by
    cases part with
    | true => exact h.instances true field receiver hknown
    | false => cases hknown
  statics := h.clearNonFinalStatics.statics
  offered part field origin constant hknown := by
    cases part with
    | true => exact h.offered true field origin constant hknown
    | false => cases hknown
  existing := h.clearNonFinalStatics.existing

theorem forgetNonFinalInstances (h : FieldsBelow scope corresponds less more) (field : FieldId) :
    FieldsBelow scope corresponds (less.forgetNonFinalInstances field) (more.forgetNonFinalInstances field) where
  instances part other receiver hknown := by
    simp only [KnownFields.instanceFact?_forgetNonFinalInstances] at hknown ⊢
    split at hknown
    · cases hknown
    · next hkept =>
      obtain ⟨origin, hsame, hmore⟩ := h.instances part other receiver hknown
      exact ⟨origin, hsame, by rwa [if_neg hkept]⟩
  statics := h.statics
  offered part other origin constant hknown := by
    rw [KnownFields.instanceFact?_forgetNonFinalInstances] at hknown
    split at hknown
    · cases hknown
    · exact h.offered part other origin constant hknown
  existing := h.existing

theorem forgetInstance (h : FieldsBelow scope corresponds less more) (hone : OneToOne corresponds)
    {origin receiver : ValueId} (hsame : corresponds origin receiver) (field : FieldId) :
    FieldsBelow scope corresponds (less.forgetInstance field receiver) (more.forgetInstance field origin) where
  instances part other found hknown := by
    simp only [KnownFields.instanceFact?_forgetInstance] at hknown ⊢
    split at hknown
    · cases hknown
    · next hkept =>
      obtain ⟨source, hsource, hmore⟩ := h.instances part other found hknown
      refine ⟨source, hsource, ?_⟩
      rwa [if_neg fun heq => hkept ⟨heq.1, (hone _ _ _ _ hsource hsame).1 heq.2⟩]
  statics := h.statics
  offered part other found constant hknown := by
    rw [KnownFields.instanceFact?_forgetInstance] at hknown
    split at hknown
    · cases hknown
    · exact h.offered part other found constant hknown
  existing := h.existing

theorem forgetStatic (h : FieldsBelow scope corresponds less more) (field : FieldId) :
    FieldsBelow scope corresponds (less.forgetStatic field) (more.forgetStatic field) where
  instances := h.instances
  statics part other hknown := by
    rw [KnownFields.staticFact?_forgetStatic] at hknown ⊢
    split at hknown
    · cases hknown
    · next hkept =>
      rw [if_neg hkept]
      exact h.statics part other hknown
  offered := h.offered
  existing part other constant hknown := by
    rw [KnownFields.staticFact?_forgetStatic] at hknown
    split at hknown
    · cases hknown
    · exact h.existing part other constant hknown

theorem recordInstance (h : FieldsBelow scope corresponds less more) (hone : OneToOne corresponds)
    {origin receiver : ValueId} (hsame : corresponds origin receiver) (isFinal : Bool) (field : FieldId)
    (known other : Known) (hconstant : ∀ constant, other = .constant constant → scope.Offers constant) :
    FieldsBelow scope corresponds (less.recordInstance isFinal field receiver known)
      (more.recordInstance isFinal field origin other) where
  instances part found place hknown := by
    simp only [KnownFields.instanceFact?_recordInstance] at hknown ⊢
    split at hknown
    · next hhere =>
      split at hknown
      · next hpart => exact ⟨origin, hhere.2 ▸ hsame, by rw [if_pos ⟨hhere.1, rfl⟩, if_pos hpart]; rfl⟩
      · cases hknown
    · next hkept =>
      obtain ⟨source, hsource, hmore⟩ := h.instances part found place hknown
      refine ⟨source, hsource, ?_⟩
      rwa [if_neg fun heq => hkept ⟨heq.1, (hone _ _ _ _ hsource hsame).1 heq.2⟩]
  statics part found hknown := by
    rw [KnownFields.staticFact?_recordInstance] at hknown ⊢
    exact h.statics part found hknown
  offered part found place constant hknown := by
    rw [KnownFields.instanceFact?_recordInstance] at hknown
    split at hknown
    · split at hknown
      · exact hconstant constant (Option.some.inj hknown)
      · cases hknown
    · exact h.offered part found place constant hknown
  existing part found constant hknown := by
    rw [KnownFields.staticFact?_recordInstance] at hknown
    exact h.existing part found constant hknown

theorem recordStatic (h : FieldsBelow scope corresponds less more) (isFinal : Bool) (field : FieldId)
    (value other : ValueId) :
    FieldsBelow scope corresponds (less.recordStatic isFinal field (.existing value))
      (more.recordStatic isFinal field (.existing other)) where
  instances part found place hknown := by
    simp only [KnownFields.instanceFact?_recordStatic] at hknown ⊢
    exact h.instances part found place hknown
  statics part found hknown := by
    rw [KnownFields.staticFact?_recordStatic] at hknown ⊢
    split at hknown
    · next hhere =>
      split at hknown
      · next hpart => rw [if_pos hhere, if_pos hpart]; rfl
      · cases hknown
    · next hkept =>
      rw [if_neg hkept]
      exact h.statics part found hknown
  offered part found place constant hknown := by
    rw [KnownFields.instanceFact?_recordStatic] at hknown
    exact h.offered part found place constant hknown
  existing part found constant hknown := by
    rw [KnownFields.staticFact?_recordStatic] at hknown
    split at hknown
    · split at hknown <;> cases hknown
    · exact h.existing part found constant hknown

/-! ### What is known -/

private theorem instance?_eq_none (h : FieldsBelow scope corresponds less more) (hone : OneToOne corresponds)
    {origin receiver : ValueId} (hsame : corresponds origin receiver) {field : FieldId}
    (hnone : more.instance? field origin = none) : less.instance? field receiver = none := by
  have hpart : ∀ part, less.instanceFact? part field receiver = none := by
    intro part
    rw [← Option.not_isSome_iff_eq_none]
    intro hknown
    obtain ⟨source, hsource, hmore⟩ := h.instances part field receiver hknown
    rw [(hone _ _ _ _ hsource hsame).2 rfl] at hmore
    rw [KnownFields.instance?_eq, Option.or_eq_none_iff] at hnone
    cases part with
    | true => simp [hnone.2] at hmore
    | false => simp [hnone.1] at hmore
  rw [KnownFields.instance?_eq, hpart, hpart, Option.or_none]

private theorem static?_eq_none (h : FieldsBelow scope corresponds less more) {field : FieldId}
    (hnone : more.static? field = none) : less.static? field = none := by
  have hpart : ∀ part, less.staticFact? part field = none := by
    intro part
    rw [← Option.not_isSome_iff_eq_none]
    intro hknown
    have hmore := h.statics part field hknown
    rw [KnownFields.static?_eq, Option.or_eq_none_iff] at hnone
    cases part with
    | true => simp [hnone.2] at hmore
    | false => simp [hnone.1] at hmore
  rw [KnownFields.static?_eq, hpart, hpart, Option.or_none]

theorem offers_of_instance? (h : FieldsBelow scope corresponds less more) {field : FieldId} {origin : ValueId}
    {constant : Constant} (hknown : more.instance? field origin = some (.constant constant)) : scope.Offers constant := by
  rw [KnownFields.instance?_eq, Option.or_eq_some_iff] at hknown
  rcases hknown with hpart | ⟨-, hpart⟩
  · exact h.offered false field origin constant hpart
  · exact h.offered true field origin constant hpart

/-- What is known of an instance field can be used. -/
theorem usable?_instance (h : FieldsBelow scope corresponds less more) {field : FieldId} {origin : ValueId}
    {known : Known} (hknown : more.instance? field origin = some known) (dest : ValueId) :
    scope.usable? dest known ≠ none := by
  cases known with
  | existing value => exact Option.some_ne_none _
  | constant constant =>
    rw [Scope.usable?, if_pos (h.offers_of_instance? hknown).1]
    exact Option.some_ne_none _

/-- A static field is known to hold a value of the body. -/
theorem static?_ne_constant (h : FieldsBelow scope corresponds less more) (field : FieldId) (constant : Constant) :
    more.static? field ≠ some (.constant constant) := by
  intro hknown
  rw [KnownFields.static?_eq, Option.or_eq_some_iff] at hknown
  rcases hknown with hpart | ⟨-, hpart⟩
  · exact h.existing false field constant hpart
  · exact h.existing true field constant hpart

end FieldsBelow

namespace Below

variable {less more : Facts}

theorem empty : Below scope corresponds {} {} :=
  ⟨.empty, List.Subset.refl _⟩

theorem clearNonFinal (h : Below scope corresponds less more) :
    Below scope corresponds less.clearNonFinal more.clearNonFinal :=
  ⟨h.fields.clearNonFinal, h.initialized⟩

theorem clearNonFinal_left (h : Below scope corresponds less more) : Below scope corresponds less.clearNonFinal more :=
  ⟨h.fields.clearNonFinal_left, h.initialized⟩

private theorem mem_markInitialized {facts : Facts} {type other : TypeId} :
    other ∈ (facts.markInitialized type).initialized ↔ other = type ∨ other ∈ facts.initialized := by
  unfold Facts.markInitialized
  split
  · next hmem =>
    refine ⟨.inr, ?_⟩
    rintro (rfl | hold)
    · exact hmem
    · exact hold
  · exact List.mem_cons

theorem markInitialized (h : Below scope corresponds less more) (type : TypeId) :
    Below scope corresponds (less.markInitialized type) (more.markInitialized type) := by
  constructor
  · rw [Scope.fields_markInitialized, Scope.fields_markInitialized]
    exact h.fields
  · intro other hother
    rw [mem_markInitialized] at hother ⊢
    exact hother.imp_right fun hmem => h.initialized hmem

theorem unmarkInitialized (h : Below scope corresponds less more) (type : TypeId) :
    Below scope corresponds (less.unmarkInitialized type) (more.unmarkInitialized type) := by
  refine ⟨h.fields, ?_⟩
  intro other hother
  obtain ⟨hmem, hne⟩ := List.mem_filter.1 hother
  exact List.mem_filter.2 ⟨h.initialized hmem, hne⟩

/-- Where less is known to be initialized, more is cleared. -/
theorem touch (h : Below scope corresponds less more) (type : TypeId) :
    Below scope corresponds (scope.touch less type) (scope.touch more type) := by
  apply markInitialized
  by_cases hmore : scope.isInitialized more type = true
  · rw [if_pos hmore]
    split
    · exact h
    · exact ⟨h.fields.clearNonFinalStatics_left, h.initialized⟩
  · have hless : ¬scope.isInitialized less type = true := by
      intro hless
      apply hmore
      simp only [Scope.isInitialized, Bool.or_eq_true, decide_eq_true_eq] at hless ⊢
      exact hless.imp_right fun hmem => h.initialized hmem
    rw [if_neg hmore, if_neg hless]
    exact ⟨h.fields.clearNonFinalStatics, h.initialized⟩

theorem afterNewInstance (h : Below scope corresponds less more) (type : TypeId) :
    Below scope corresponds (scope.afterNewInstance less type) (scope.afterNewInstance more type) := by
  apply markInitialized
  by_cases hmore : (decide (type ∉ more.initialized) && scope.program.initializationHasEffects type scope.holder) = true
  · have hless : (decide (type ∉ less.initialized) && scope.program.initializationHasEffects type scope.holder) = true := by
      rw [Bool.and_eq_true, decide_eq_true_eq] at hmore ⊢
      exact ⟨fun hmem => hmore.1 (h.initialized hmem), hmore.2⟩
    rw [if_pos hmore, if_pos hless]
    exact h.clearNonFinal
  · rw [if_neg hmore]
    split
    · exact h.clearNonFinal_left
    · exact h

end Below

/-! ### Calls -/

section Calls

/-- Under other names an argument is an argument, and a constant is the same constant. -/
theorem initialValue?_map (scope : Scope) (rename : ValueId → ValueId) (arguments : List ValueId)
    (initialization : FieldInitialization) :
    (scope.initialValue? (arguments.map rename) initialization).isSome
      = (scope.initialValue? arguments initialization).isSome := by
  cases initialization with
  | argument index => simp [Scope.initialValue?]
  | constant value => rfl

private theorem Scope.Lists.offers {arguments : List ValueId} {field : FieldId} {initialization : FieldInitialization}
    {constant : Constant} (h : scope.Lists (field, initialization))
    (hvalue : scope.initialValue? arguments initialization = some (.constant constant)) : scope.Offers constant := by
  cases initialization with
  | argument index => simp [Scope.initialValue?] at hvalue
  | constant value =>
    rw [Scope.initialValue?, Option.ite_none_right_eq_some, Option.some.injEq, Known.constant.injEq] at hvalue
    obtain ⟨hmaterializable, rfl⟩ := hvalue
    exact ⟨hmaterializable, field, h⟩

variable {origin receiver : ValueId} (rename : ValueId → ValueId)

/-- One field set by an initializer on corresponding receivers. -/
theorem FieldsBelow.afterFieldInitialization {less more later : KnownFields}
    (h : FieldsBelow scope corresponds less more) (hone : OneToOne corresponds) (hsame : corresponds origin receiver)
    {arguments : List ValueId} {entry : FieldId × FieldInitialization} (hentry : scope.Lists entry)
    (hafter : scope.afterFieldInitialization origin arguments more entry = .ok later) :
    ∃ least, scope.afterFieldInitialization receiver (arguments.map rename) less entry = .ok least ∧
      FieldsBelow scope corresponds least later := by
  obtain ⟨field, source⟩ := entry
  have hspoiled := (h.forgetNonFinalInstances field).forgetInstance hone hsame field
  have hvalue := initialValue?_map scope rename arguments source
  obtain ⟨definition, hfield, -⟩ := Scope.afterFieldInitialization_cases hafter
  simp only [Scope.afterFieldInitialization, Program.field, hfield, bind, Except.bind] at hafter ⊢
  by_cases hpropagate : scope.program.mayPropagate definition = true
  · simp only [hpropagate, if_true] at hafter ⊢
    cases hknown : scope.initialValue? arguments source with
    | none =>
      rw [hknown, Option.isSome_none, Option.isSome_eq_false_iff, Option.isNone_iff_eq_none] at hvalue
      rw [hknown] at hafter
      rw [hvalue]
      obtain rfl := Except.ok.inj hafter
      exact ⟨_, rfl, hspoiled⟩
    | some known =>
      rw [hknown, Option.isSome_some, Option.isSome_iff_exists] at hvalue
      obtain ⟨renamed, hrenamed⟩ := hvalue
      rw [hknown] at hafter
      rw [hrenamed]
      obtain rfl := Except.ok.inj hafter
      refine ⟨_, rfl, hspoiled.recordInstance hone hsame definition.isFinal field renamed known ?_⟩
      rintro constant rfl
      exact hentry.offers hknown
  · simp only [hpropagate, Bool.false_eq_true, if_false] at hafter ⊢
    obtain rfl := Except.ok.inj hafter
    exact ⟨_, rfl, hspoiled⟩

/-- All fields set by an initializer on corresponding receivers. -/
theorem FieldsBelow.foldlM_afterFieldInitialization (hone : OneToOne corresponds)
    (hsame : corresponds origin receiver) {arguments : List ValueId} {entries : List (FieldId × FieldInitialization)}
    (hentries : ∀ entry ∈ entries, scope.Lists entry) {less more later : KnownFields}
    (h : FieldsBelow scope corresponds less more)
    (hafter : entries.foldlM (scope.afterFieldInitialization origin arguments) more = .ok later) :
    ∃ least, entries.foldlM (scope.afterFieldInitialization receiver (arguments.map rename)) less = .ok least ∧
      FieldsBelow scope corresponds least later := by
  induction entries generalizing less more with
  | nil =>
    obtain rfl := Except.ok.inj hafter
    exact ⟨less, rfl, h⟩
  | cons entry entries ih =>
    rw [List.foldlM_cons] at hafter
    cases hnext : scope.afterFieldInitialization origin arguments more entry with
    | error error =>
      rw [hnext] at hafter
      cases hafter
    | ok next =>
      rw [hnext] at hafter
      obtain ⟨middle, hmiddle, hbelow⟩ :=
        h.afterFieldInitialization rename hone hsame (hentries entry List.mem_cons_self) hnext
      obtain ⟨least, hleast, hend⟩ :=
        ih (fun other hother => hentries other (List.mem_cons_of_mem _ hother)) hbelow hafter
      exact ⟨least, by rw [List.foldlM_cons, hmiddle]; exact hleast, hend⟩

theorem Below.afterInvoke {less more later : Facts} (h : Below scope corresponds less more)
    (hone : OneToOne corresponds) {body : Body} {kind : InvokeKind} {reference : MethodRef} {arguments : List ValueId}
    (hsame : ∀ object rest, arguments = object :: rest →
      corresponds (body.aliasRoot object) (body.aliasRoot (rename object)))
    (hafter : scope.afterInvoke body more kind reference arguments = .ok later) :
    ∃ least, scope.afterInvoke body less kind reference (arguments.map rename) = .ok least ∧
      Below scope corresponds least later := by
  cases hsummary : scope.initializerSummary? kind reference with
  | none =>
    simp only [Scope.afterInvoke, hsummary] at hafter ⊢
    obtain rfl := Except.ok.inj hafter
    exact ⟨_, rfl, h.clearNonFinal⟩
  | some summary =>
    cases arguments with
    | nil =>
      simp only [Scope.afterInvoke, hsummary, List.map_nil] at hafter ⊢
      obtain rfl := Except.ok.inj hafter
      exact ⟨_, rfl, h.clearNonFinal⟩
    | cons object rest =>
      have hstart : Below scope corresponds (if summary.hasOtherEffects then less.clearNonFinal else less)
          (if summary.hasOtherEffects then more.clearNonFinal else more) := by
        split
        · exact h.clearNonFinal
        · exact h
      simp only [Scope.afterInvoke, hsummary, List.map_cons, bind, Except.bind] at hafter ⊢
      split at hafter
      · cases hafter
      · next fields hfold =>
        obtain rfl := Except.ok.inj hafter
        obtain ⟨-, method, hmethod⟩ := Scope.initializerSummary?_eq_some hsummary
        obtain ⟨least, hleast, hbelow⟩ := hstart.fields.foldlM_afterFieldInitialization rename hone
          (hsame object rest rfl) (fun entry hentry => ⟨method, summary, hmethod, hentry⟩) hfold
        rw [List.map_cons] at hleast
        rw [hleast]
        exact ⟨_, rfl, hbelow, hstart.initialized⟩

end Calls

/-! ### One instruction -/

section Instructions

variable {less more later : Facts} {body : Body} {operation : Operation} {rename : ValueId → ValueId}

/-- The receiver of the operation corresponds to what it is called under the other names. -/
def Matched (corresponds : ValueId → ValueId → Prop) (rename : ValueId → ValueId) (body : Body)
    (operation : Operation) : Prop :=
  ∀ object, operation.receiver? = some object → corresponds (body.aliasRoot object) (body.aliasRoot (rename object))

/-- What is not redundant to more is not redundant to less. -/
theorem Below.redundancy?_eq_none (h : Below scope corresponds less more) (hone : OneToOne corresponds)
    (hmatched : Matched corresponds rename body operation)
    (hnone : scope.redundancy? body more operation = none) :
    scope.redundancy? body less (operation.mapOperands rename) = none := by
  cases operation
  case instanceGet dest object field =>
    simp only [Scope.redundancy?, Operation.mapOperands_instanceGet] at hnone ⊢
    cases htracked : scope.trackedField? field false with
    | none => rfl
    | some definition =>
      simp only [htracked, Option.bind_eq_bind, Option.bind_some] at hnone ⊢
      by_cases hlocal : body.hasLocalInfo dest = true
      · rw [if_pos hlocal]
      · rw [if_neg hlocal] at hnone ⊢
        have hmore : more.fields.instance? definition.id (body.aliasRoot object) = none := by
          cases hknown : more.fields.instance? definition.id (body.aliasRoot object) with
          | none => rfl
          | some known =>
            rw [hknown, Option.bind_some] at hnone
            exact absurd hnone (h.fields.usable?_instance hknown dest)
        rw [h.fields.instance?_eq_none hone (hmatched object rfl) hmore, Option.bind_none]
  case staticGet dest field =>
    simp only [Scope.redundancy?, Operation.mapOperands_staticGet] at hnone ⊢
    cases htracked : scope.trackedField? field true with
    | none => rfl
    | some definition =>
      simp only [htracked, Option.bind_eq_bind, Option.bind_some] at hnone ⊢
      by_cases hlocal : body.hasLocalInfo dest = true
      · rw [if_pos hlocal]
      · rw [if_neg hlocal] at hnone ⊢
        have hmore : more.fields.static? definition.id = none := by
          cases hknown : more.fields.static? definition.id with
          | none => rfl
          | some known =>
            cases known with
            | existing value =>
              rw [hknown] at hnone
              cases hnone
            | constant constant => exact absurd hknown (h.fields.static?_ne_constant definition.id constant)
        rw [h.fields.static?_eq_none hmore, Option.bind_none]
  case initClass dest type =>
    change (if type ∈ less.initialized then some (Redundancy.initialized type) else none) = none
    simp only [Scope.redundancy?] at hnone
    split at hnone
    · cases hnone
    · next hmore => rw [if_neg fun hless => hmore (h.initialized hless)]
  all_goals rfl

/-- What stays in place for both leaves the one below the other. -/
theorem Below.after (h : Below scope corresponds less more) (hone : OneToOne corresponds)
    (hmatched : Matched corresponds rename body operation) (hafter : scope.after body more operation = .ok later) :
    ∃ least, scope.after body less (operation.mapOperands rename) = .ok least ∧
      Below scope corresponds least later := by
  cases operation
  case instanceGet dest object field =>
    obtain rfl := Except.ok.inj hafter
    refine ⟨_, rfl, ?_⟩
    unfold Scope.afterInstanceGet
    split
    · exact h.clearNonFinal
    · next definition _ =>
      split
      · exact h
      · exact ⟨h.fields.recordInstance hone (hmatched object rfl) false definition.id (.existing dest) (.existing dest)
          nofun, h.initialized⟩
  case instancePut object field value =>
    obtain rfl := Except.ok.inj hafter
    refine ⟨_, rfl, ?_⟩
    unfold Scope.afterInstancePut
    split
    · exact h.clearNonFinal
    · next definition _ =>
      exact ⟨(h.fields.forgetNonFinalInstances definition.id).recordInstance hone (hmatched object rfl)
        definition.isFinal definition.id (.existing (rename value)) (.existing value) nofun, h.initialized⟩
  case staticGet dest field =>
    obtain rfl := Except.ok.inj hafter
    refine ⟨_, rfl, ?_⟩
    unfold Scope.afterStaticGet
    split
    · exact h.clearNonFinal
    · next definition _ =>
      have htouched := h.touch definition.holder
      dsimp only
      split
      · exact htouched
      · exact ⟨htouched.fields.recordStatic false definition.id dest dest, htouched.initialized⟩
  case staticPut field value =>
    obtain rfl := Except.ok.inj hafter
    refine ⟨_, rfl, ?_⟩
    unfold Scope.afterStaticPut
    split
    · exact h.clearNonFinal
    · next definition _ =>
      have htouched := h.touch definition.holder
      exact ⟨htouched.fields.recordStatic definition.isFinal definition.id (rename value) value, htouched.initialized⟩
  case initClass dest type =>
    obtain rfl := Except.ok.inj hafter
    exact ⟨_, rfl, h.touch type⟩
  case newInstance dest type =>
    obtain rfl := Except.ok.inj hafter
    exact ⟨_, rfl, h.afterNewInstance type⟩
  case invoke dest kind reference arguments =>
    rw [Operation.mapOperands_invoke]
    refine h.afterInvoke rename hone (fun object rest heq => hmatched object ?_) hafter
    rw [heq]
    rfl
  case invokeCustom | monitorEnter =>
    obtain rfl := Except.ok.inj hafter
    exact ⟨_, rfl, h.clearNonFinal⟩
  all_goals
    obtain rfl := Except.ok.inj hafter
    exact ⟨_, rfl, h⟩

theorem Below.withoutEffectOf (h : Below scope corresponds less more) (hone : OneToOne corresponds)
    (hmatched : Matched corresponds rename body operation) :
    Below scope corresponds (scope.withoutEffectOf body less (operation.mapOperands rename))
      (scope.withoutEffectOf body more operation) := by
  have hinstance : ∀ object field, operation.receiver? = some object → Below scope corresponds
      { less with fields := less.fields.forgetInstance field (body.aliasRoot (rename object)) }
      { more with fields := more.fields.forgetInstance field (body.aliasRoot object) } :=
    fun object field hobject => ⟨h.fields.forgetInstance hone (hmatched object hobject) field, h.initialized⟩
  have hstatic : ∀ field, Below scope corresponds { less with fields := less.fields.forgetStatic field }
      { more with fields := more.fields.forgetStatic field } :=
    fun field => ⟨h.fields.forgetStatic field, h.initialized⟩
  cases operation
  case instanceGet dest object field =>
    simp only [Operation.mapOperands_instanceGet, Scope.withoutEffectOf]
    split
    · exact h
    · exact hinstance object _ rfl
  case instancePut object field value =>
    simp only [Operation.mapOperands_instancePut, Scope.withoutEffectOf]
    split
    · exact h
    · exact hinstance object _ rfl
  case staticGet | staticPut =>
    simp only [Operation.mapOperands_staticGet, Operation.mapOperands_staticPut, Scope.withoutEffectOf]
    split
    · exact h
    · exact (hstatic _).unmarkInitialized _
  case initClass dest type => exact h.unmarkInitialized type
  case newInstance dest type => exact h.unmarkInitialized type
  all_goals exact h

end Instructions

end LoadElimination

end Bytecode
