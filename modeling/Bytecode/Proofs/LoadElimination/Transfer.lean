import Bytecode.Proofs.LoadElimination.Preservation
/-!
# Instructions keep facts true

What is known after an instruction holds if what was known before it held. An instruction that goes on leads to the facts
after it. One that raises an exception leads to the same facts without its own effect, unless it runs an initializer with
a summary, for which no effect is taken back.
-/

namespace Bytecode.LoadElimination

open Execution

variable {Datum Address World : Type} {machine : Machine Datum Address World} {scope : Scope} {origin : ValueId → ValueId}
  {body : Body} {env : ValueId → Option Datum} {facts known : Facts} {data : List Datum}
  {situation later : Situation Datum Address World}

/-- The origin of an operand's alias root holds what the operand holds. -/
def RootsAgree (body : Body) (origin : ValueId → ValueId) (env : ValueId → Option Datum) (operation : Operation) : Prop :=
  ∀ operand ∈ operation.operands, ∀ datum, env operand = some datum → env (origin (body.aliasRoot operand)) = some datum

/-! ### Allocation -/

/-- The memory in which an object is allocated: initializing its class may have run any code. -/
theorem Holds.allocating {memory other : Memory Datum Address} (h : Holds machine scope origin facts env memory)
    (type : TypeId) :
    Holds machine scope origin
      (if type ∉ facts.initialized && scope.program.initializationHasEffects type scope.holder then facts.clearNonFinal
        else facts) env
      (if !memory.initialized type && scope.program.initializationHasEffects type scope.holder then
        memory.disturbedBy scope.program.isFinalField other else memory) := by
  have hkeeps : Memory.KeepsSettled scope.program.isFinalField memory
      (if !memory.initialized type && scope.program.initializationHasEffects type scope.holder then
        memory.disturbedBy scope.program.isFinalField other else memory) := by
    split
    · exact Memory.keepsSettled_disturbedBy _ _ _
    · exact .refl _ _
  by_cases hcleared : (type ∉ facts.initialized && scope.program.initializationHasEffects type scope.holder) = true
  · rw [if_pos hcleared]
    exact h.clearNonFinal (.refl env) hkeeps
  · have hsame : ¬(!memory.initialized type && scope.program.initializationHasEffects type scope.holder) = true := by
      intro hdisturbed
      obtain ⟨hnot, heffects⟩ := Bool.and_eq_true_iff.1 hdisturbed
      refine hcleared (Bool.and_eq_true_iff.2 ⟨decide_eq_true fun hmem => ?_, heffects⟩)
      rw [h.initialized type hmem] at hnot
      cases hnot
    rw [if_neg hcleared, if_neg hsame]
    exact h

/-- Code that is not known has been run. -/
theorem Holds.unknownCode {response : Response Datum Address World}
    (h : Holds machine scope origin facts env situation.memory)
    (hleaves : (Execution.unknownCode scope response situation).Leaves later) :
    Holds machine scope origin facts.clearNonFinal env later.memory := by
  rw [memory_of_unknownCode hleaves]
  exact h.clearNonFinal (.refl env) (Memory.keepsSettled_disturbedBy _ _ _)

/-! ### Instructions that go on -/

/-- The facts on classes and static fields once a class has been touched. -/
theorem Holds.touched (h : Holds machine scope origin facts env situation.memory)
    (hholder : situation.memory.initialized scope.holder = true) {response : Response Datum Address World}
    {result : Datum} {type : TypeId}
    {next : Situation Datum Address World → Outcome Datum Address World}
    (hdone : initializing scope response situation type next = .done result later) :
    ∃ middle, next middle = .done result later ∧ middle.memory.initialized type = true ∧
      Holds machine scope origin (scope.touch facts type) env middle.memory := by
  obtain ⟨middle, hnext, hinitialized, hmiddle⟩ := initializing_eq_done hdone
  exact ⟨middle, hnext, hinitialized, h.touch hholder hinitialized (hmiddle.imp_left (congrArg Situation.memory))⟩

section Goes

variable [DecidableEq Address] {response : Response Datum Address World} {choice : Nat} {result : Datum}
  {operation : Operation}

theorem Holds.afterInstanceGet {dest object : ValueId} {reference : FieldRef}
    (h : Holds machine scope origin facts env situation.memory) (hdata : [object].mapM env = some data)
    (hroots : RootsAgree body origin env (.instanceGet dest object reference)) (hdest : env dest = none)
    (hdone : outcome machine scope response situation choice data (.instanceGet dest object reference)
      = .done result later) :
    Holds machine scope origin (scope.afterInstanceGet body facts dest object reference) (assign env (some dest) result)
      later.memory := by
  have hextends : Extends env (assign env (some dest) result) :=
    extends_assign (by rintro value ⟨⟩; exact hdest) result
  unfold Scope.afterInstanceGet
  simp only [outcome] at hdone
  cases htracked : scope.trackedField? reference false with
  | none =>
    rw [htracked] at hdone
    exact (h.unknownCode (.inl ⟨result, hdone⟩)).extend hextends
  | some definition =>
    rw [htracked] at hdone
    obtain ⟨datum, address, hhead, haddress, hdone⟩ := dereferencing_eq_done hdone
    cases hdone
    dsimp only
    split
    · exact h.extend hextends
    · have hroot := hroots object List.mem_cons_self datum (env_of_head hdata hhead)
      exact (h.extend hextends).recordInstance
        ⟨datum, address, hextends _ _ hroot, haddress, assign_self env dest _, by rintro ⟨⟩⟩

theorem Holds.afterInstancePut (hguarded : machine.guarded = true) (hcoherent : scope.program.Coherent)
    {object value : ValueId} {reference : FieldRef}
    (h : Holds machine scope origin facts env situation.memory) (hdata : [object, value].mapM env = some data)
    (hroots : RootsAgree body origin env (.instancePut object reference value))
    (hdone : outcome machine scope response situation choice data (.instancePut object reference value)
      = .done result later) :
    Holds machine scope origin (scope.afterInstancePut body facts object reference value) env later.memory := by
  unfold Scope.afterInstancePut
  simp only [outcome] at hdone
  cases htracked : scope.trackedField? reference false with
  | none =>
    rw [htracked] at hdone
    exact h.unknownCode (.inl ⟨result, hdone⟩)
  | some definition =>
    rw [htracked] at hdone
    obtain ⟨datum, address, hhead, haddress, hstored⟩ := dereferencing_eq_done hdone
    obtain ⟨written, hwritten, hput⟩ := Option.bind_eq_some_iff.1 (storing_leaves (.inl ⟨result, hstored⟩))
    have hroot := hroots object List.mem_cons_self datum (env_of_head hdata hhead)
    rw [guards_eq hguarded] at hput
    exact h.putInstance hcoherent htracked hroot haddress (env_of_mapM hdata rfl hwritten) hput

theorem Holds.afterStaticGet (hcoherent : scope.program.Coherent) {dest : ValueId} {reference : FieldRef}
    (h : Holds machine scope origin facts env situation.memory)
    (hholder : situation.memory.initialized scope.holder = true) (hdest : env dest = none)
    (hdone : outcome machine scope response situation choice data (.staticGet dest reference) = .done result later) :
    Holds machine scope origin (scope.afterStaticGet body facts dest reference) (assign env (some dest) result)
      later.memory := by
  have hextends : Extends env (assign env (some dest) result) :=
    extends_assign (by rintro value ⟨⟩; exact hdest) result
  unfold Scope.afterStaticGet
  simp only [outcome] at hdone
  cases htracked : scope.trackedField? reference true with
  | none =>
    rw [htracked] at hdone
    exact (h.unknownCode (.inl ⟨result, hdone⟩)).extend hextends
  | some definition =>
    rw [htracked] at hdone
    obtain ⟨middle, hnext, hinitialized, htouched⟩ := h.touched hholder hdone
    cases hnext
    dsimp only
    split
    · exact htouched.extend hextends
    · refine (htouched.extend hextends).recordStatic ⟨assign_self env dest _, fun found hfound => ?_, by rintro ⟨⟩⟩
      obtain rfl := Option.some.inj ((Scope.field?_of_trackedField? hcoherent htracked).symm.trans hfound)
      exact hinitialized

theorem Holds.afterStaticPut (hguarded : machine.guarded = true) (hcoherent : scope.program.Coherent)
    {value : ValueId} {reference : FieldRef}
    (h : Holds machine scope origin facts env situation.memory)
    (hholder : situation.memory.initialized scope.holder = true) (hdata : [value].mapM env = some data)
    (hdone : outcome machine scope response situation choice data (.staticPut reference value) = .done result later) :
    Holds machine scope origin (scope.afterStaticPut facts reference value) env later.memory := by
  unfold Scope.afterStaticPut
  simp only [outcome] at hdone
  cases htracked : scope.trackedField? reference true with
  | none =>
    rw [htracked] at hdone
    exact h.unknownCode (.inl ⟨result, hdone⟩)
  | some definition =>
    rw [htracked] at hdone
    obtain ⟨middle, hnext, hinitialized, htouched⟩ := h.touched hholder hdone
    obtain ⟨written, hwritten, hput⟩ := Option.bind_eq_some_iff.1 (storing_leaves (.inl ⟨result, hnext⟩))
    rw [guards_eq hguarded] at hput
    exact htouched.putStatic hcoherent htracked (env_of_head hdata hwritten) hinitialized hput

theorem Holds.afterInvoke (hguarded : machine.guarded = true) (hcoherent : scope.program.Coherent)
    {dest : Option ValueId} {kind : InvokeKind} {reference : MethodRef} {arguments : List ValueId}
    (h : Holds machine scope origin facts env situation.memory) (hdata : arguments.mapM env = some data)
    (hroots : RootsAgree body origin env (.invoke dest kind reference arguments))
    (hdone : outcome machine scope response situation choice data (.invoke dest kind reference arguments)
      = .done result later)
    (hafter : scope.afterInvoke body facts kind reference arguments = .ok known) :
    Holds machine scope origin known env later.memory := by
  have hlength : arguments.length = data.length := by
    simpa using congrArg List.length (map_eq_of_mapM hdata)
  simp only [outcome] at hdone
  unfold Scope.afterInvoke at hafter
  cases hsummary : scope.initializerSummary? kind reference with
  | none =>
    rw [hsummary] at hdone hafter
    obtain rfl := Except.ok.inj hafter
    exact h.unknownCode (.inl ⟨result, hdone⟩)
  | some summary =>
    rw [hsummary] at hdone hafter
    obtain ⟨hwhole, -⟩ := Scope.initializerSummary?_eq_some hsummary
    cases arguments with
    | nil =>
      obtain rfl := List.length_eq_zero_iff.1 hlength.symm
      obtain rfl := Except.ok.inj hafter
      exact h.unknownCode (.inl ⟨result, hdone⟩)
    | cons receiver rest =>
      dsimp only at hdone hafter
      rw [if_neg (by cases data <;> simp at hlength ⊢)] at hdone
      obtain ⟨object, address, hhead, haddress, hfold⟩ := construct_eq_done hdone
      obtain ⟨fields, hfields, hknown⟩ : ∃ fields, summary.fields.foldlM
          (scope.afterFieldInitialization (body.aliasRoot receiver) (receiver :: rest))
          (if summary.hasOtherEffects then facts.clearNonFinal else facts).fields = .ok fields ∧
          known = { (if summary.hasOtherEffects then facts.clearNonFinal else facts) with fields } := by
        cases hfields : summary.fields.foldlM
            (scope.afterFieldInitialization (body.aliasRoot receiver) (receiver :: rest))
            (if summary.hasOtherEffects then facts.clearNonFinal else facts).fields with
        | error => simp [hfields, bind, Except.bind] at hafter
        | ok fields =>
          rw [hfields] at hafter
          exact ⟨fields, rfl, (Except.ok.inj hafter).symm⟩
      subst hknown
      have hroot := hroots receiver List.mem_cons_self object (env_of_head hdata hhead)
      refine Holds.initializeFields hguarded hcoherent hwhole hdata hroot haddress ?_ hfold hfields
      split
      · exact h.clearNonFinal (.refl env) (Memory.keepsSettled_disturbedBy _ _ _)
      · exact h

/-- The facts after an instruction hold where it has gone on. -/
theorem Holds.after (hguarded : machine.guarded = true) (hcoherent : scope.program.Coherent)
    (h : Holds machine scope origin facts env situation.memory)
    (hholder : situation.memory.initialized scope.holder = true)
    (hdata : operation.operands.mapM env = some data) (hroots : RootsAgree body origin env operation)
    (hdest : ∀ value, operation.dest? = some value → env value = none)
    (hdone : outcome machine scope response situation choice data operation = .done result later)
    (hafter : scope.after body facts operation = .ok known) :
    Holds machine scope origin known (assign env operation.dest? result) later.memory := by
  have hextends := extends_assign hdest result
  cases operation
  case instanceGet =>
    cases hafter
    exact h.afterInstanceGet hdata hroots (hdest _ rfl) hdone
  case instancePut =>
    cases hafter
    exact (h.afterInstancePut hguarded hcoherent hdata hroots hdone).extend hextends
  case staticGet =>
    cases hafter
    exact h.afterStaticGet hcoherent hholder (hdest _ rfl) hdone
  case staticPut =>
    cases hafter
    exact (h.afterStaticPut hguarded hcoherent hholder hdata hdone).extend hextends
  case initClass =>
    cases hafter
    obtain ⟨middle, hnext, -, htouched⟩ := h.touched hholder hdone
    cases hnext
    exact htouched.extend hextends
  case newInstance type =>
    cases hafter
    simp only [outcome] at hdone
    split at hdone
    · cases hdone
    · cases hdone
      exact (((h.allocating type).marked type).markInitialized (by simp [Memory.markInitialized])).extend hextends
  case invoke =>
    exact (h.afterInvoke hguarded hcoherent hdata hroots hdone hafter).extend hextends
  case invokeCustom | monitorEnter =>
    cases hafter
    exact (h.unknownCode (.inl ⟨result, hdone⟩)).extend hextends
  case argument | constNumber | constNull | debugLocalRead | constString | moveException =>
    cases hafter
    cases hdone
    exact h.extend hextends
  case goto | branch | switch | «return» => cases hdone
  case assume =>
    cases hafter
    simp only [outcome] at hdone
    split at hdone <;> cases hdone
    exact h.extend hextends
  case throw =>
    simp only [outcome] at hdone
    split at hdone <;> cases hdone
  all_goals
    cases hafter
    simp only [outcome] at hdone
    rw [memory_of_quiet (.inl ⟨result, hdone⟩)]
    exact h.extend hextends

end Goes

/-! ### Instructions that raise an exception -/

/-- Facts that say nothing new hold in the same environment and memory. -/
theorem Holds.subset {fewer : Facts} {memory : Memory Datum Address} (h : Holds machine scope origin facts env memory)
    (hinstance : ∀ isFinal field receiver found, fewer.fields.instanceFact? isFinal field receiver = some found →
      facts.fields.instanceFact? isFinal field receiver = some found)
    (hstatic : ∀ isFinal field found, fewer.fields.staticFact? isFinal field = some found →
      facts.fields.staticFact? isFinal field = some found)
    (hinitialized : ∀ type ∈ fewer.initialized, type ∈ facts.initialized) :
    Holds machine scope origin fewer env memory :=
  h.mono (.refl env) (.refl _ _) (fun _ _ _ _ hfact => ⟨hinstance _ _ _ _ hfact, .inr fun _ => rfl⟩)
    (fun _ _ _ hfact => ⟨hstatic _ _ _ hfact, .inr rfl⟩) fun type htype => .inl (hinitialized type htype)

theorem mem_initialized_of_unmark {type other : TypeId}
    (h : other ∈ ((facts.markInitialized type).unmarkInitialized type).initialized) : other ∈ facts.initialized := by
  obtain ⟨hmem, hne⟩ := List.mem_filter.1 h
  unfold Facts.markInitialized at hmem
  split at hmem
  · exact hmem
  · exact (List.mem_cons.1 hmem).resolve_left (of_decide_eq_true hne)

/-- Taking a mark back leaves nothing new. -/
theorem Holds.unmark {memory : Memory Datum Address} (h : Holds machine scope origin facts env memory) (type : TypeId) :
    Holds machine scope origin ((facts.markInitialized type).unmarkInitialized type) env memory :=
  h.subset (fun _ _ _ _ hfact => Scope.fields_markInitialized facts type ▸ hfact)
    (fun _ _ _ hfact => Scope.fields_markInitialized facts type ▸ hfact) fun _ htype => mem_initialized_of_unmark htype

/-- The initializer of a class has raised an exception. -/
theorem Holds.untouch {memory : Memory Datum Address} (h : Holds machine scope origin facts env memory)
    (hholder : memory.initialized scope.holder = true) {type : TypeId} (hnot : memory.initialized type = false)
    (other : Memory Datum Address) :
    Holds machine scope origin ((scope.touch facts type).unmarkInitialized type) env
      (memory.initializedBy scope.program.isFinalField other) := by
  unfold Scope.touch
  rw [not_isInitialized h hholder hnot]
  exact (h.clearNonFinalStatics other).unmark type

/-- What an access to an instance field has made known is taken back. -/
theorem Holds.forgetInstance {memory : Memory Datum Address} {accessed : Facts} {field : FieldId} {object : ValueId}
    (h : Holds machine scope origin facts env memory)
    (hinstance : ∀ isFinal other receiver found, ¬(other = field ∧ receiver = object) →
      accessed.fields.instanceFact? isFinal other receiver = some found →
      facts.fields.instanceFact? isFinal other receiver = some found)
    (hstatic : ∀ isFinal other found, accessed.fields.staticFact? isFinal other = some found →
      facts.fields.staticFact? isFinal other = some found)
    (hinitialized : accessed.initialized = facts.initialized) :
    Holds machine scope origin { accessed with fields := accessed.fields.forgetInstance field object } env memory := by
  refine h.subset (fun isFinal other receiver found hfact => ?_) (fun isFinal other found hfact => ?_)
    fun type htype => hinitialized ▸ htype
  · rw [KnownFields.instanceFact?_forgetInstance] at hfact
    split at hfact
    · cases hfact
    · rename_i hother
      exact hinstance isFinal other receiver found hother hfact
  · exact hstatic isFinal other found hfact

/-- What an access to a static field has made known is taken back. -/
theorem Holds.forgetStatic {memory : Memory Datum Address} {accessed : Facts} {field : FieldId} {type : TypeId}
    (h : Holds machine scope origin (facts.unmarkInitialized type) env memory)
    (hinstance : ∀ isFinal other receiver found, accessed.fields.instanceFact? isFinal other receiver = some found →
      facts.fields.instanceFact? isFinal other receiver = some found)
    (hstatic : ∀ isFinal other found, other ≠ field → accessed.fields.staticFact? isFinal other = some found →
      facts.fields.staticFact? isFinal other = some found)
    (hinitialized : accessed.initialized = facts.initialized) :
    Holds machine scope origin
      (Facts.unmarkInitialized { accessed with fields := accessed.fields.forgetStatic field } type) env memory := by
  refine h.subset (fun isFinal other receiver found hfact => hinstance isFinal other receiver found hfact)
    (fun isFinal other found hfact => ?_) fun other hother => ?_
  · change (accessed.fields.forgetStatic field).staticFact? isFinal other = some found at hfact
    rw [KnownFields.staticFact?_forgetStatic] at hfact
    split at hfact
    · cases hfact
    · rename_i hne
      exact hstatic isFinal other found hne hfact
  · simpa only [Facts.unmarkInitialized, hinitialized] using hother

section Raises

variable [DecidableEq Address] {response : Response Datum Address World} {choice : Nat} {exception : Datum}
  {operation : Operation}

private theorem Holds.withoutInstanceGet {dest object : ValueId} {reference : FieldRef}
    (h : Holds machine scope origin facts env situation.memory)
    (hraised : outcome machine scope response situation choice data (.instanceGet dest object reference)
      = .raised exception later) :
    Holds machine scope origin (scope.withoutEffectOf body (scope.afterInstanceGet body facts dest object reference)
      (.instanceGet dest object reference)) env later.memory := by
  simp only [outcome] at hraised
  simp only [Scope.withoutEffectOf, Scope.afterInstanceGet]
  cases htracked : scope.trackedField? reference false with
  | none =>
    rw [htracked] at hraised
    exact h.unknownCode (.inr ⟨exception, hraised⟩)
  | some definition =>
    rw [htracked] at hraised
    rw [dereferencing_eq_raised hraised (by rintro _ ⟨⟩)]
    dsimp only
    split
    · exact h.forgetInstance (fun _ _ _ _ _ hfact => hfact) (fun _ _ _ hfact => hfact) rfl
    · refine h.forgetInstance (fun isFinal other receiver found hother hfact => ?_) (fun _ _ _ hfact => ?_) rfl
      · rwa [KnownFields.instanceFact?_recordInstance, if_neg hother] at hfact
      · rwa [KnownFields.staticFact?_recordInstance] at hfact

private theorem Holds.withoutInstancePut {object value : ValueId} {reference : FieldRef}
    (h : Holds machine scope origin facts env situation.memory)
    (hraised : outcome machine scope response situation choice data (.instancePut object reference value)
      = .raised exception later) :
    Holds machine scope origin (scope.withoutEffectOf body (scope.afterInstancePut body facts object reference value)
      (.instancePut object reference value)) env later.memory := by
  simp only [outcome] at hraised
  simp only [Scope.withoutEffectOf, Scope.afterInstancePut]
  cases htracked : scope.trackedField? reference false with
  | none =>
    rw [htracked] at hraised
    exact h.unknownCode (.inr ⟨exception, hraised⟩)
  | some definition =>
    rw [htracked] at hraised
    rw [dereferencing_eq_raised hraised fun _ => storing_ne_raised]
    refine h.forgetInstance (fun isFinal other receiver found hother hfact => ?_) (fun _ _ _ hfact => ?_) rfl
    · rw [KnownFields.instanceFact?_recordInstance, if_neg hother,
        KnownFields.instanceFact?_forgetNonFinalInstances] at hfact
      split at hfact
      · cases hfact
      · exact hfact
    · rwa [KnownFields.staticFact?_recordInstance] at hfact

private theorem Holds.withoutStaticGet {dest : ValueId} {reference : FieldRef}
    (h : Holds machine scope origin facts env situation.memory)
    (hholder : situation.memory.initialized scope.holder = true)
    (hraised : outcome machine scope response situation choice data (.staticGet dest reference)
      = .raised exception later) :
    Holds machine scope origin (scope.withoutEffectOf body (scope.afterStaticGet body facts dest reference)
      (.staticGet dest reference)) env later.memory := by
  simp only [outcome] at hraised
  simp only [Scope.withoutEffectOf, Scope.afterStaticGet]
  cases htracked : scope.trackedField? reference true with
  | none =>
    rw [htracked] at hraised
    exact h.unknownCode (.inr ⟨exception, hraised⟩)
  | some definition =>
    rw [htracked] at hraised
    obtain ⟨hnot, heq⟩ := initializing_eq_raised hraised (by rintro _ ⟨⟩)
    rw [heq]
    have huntouched := h.untouch hholder hnot response.memory
    dsimp only
    split
    · exact huntouched.forgetStatic (fun _ _ _ _ hfact => hfact) (fun _ _ _ _ hfact => hfact) rfl
    · refine huntouched.forgetStatic (fun _ _ _ _ hfact => ?_) (fun isFinal other found hne hfact => ?_) rfl
      · rwa [KnownFields.instanceFact?_recordStatic] at hfact
      · rwa [KnownFields.staticFact?_recordStatic, if_neg hne] at hfact

private theorem Holds.withoutStaticPut {value : ValueId} {reference : FieldRef}
    (h : Holds machine scope origin facts env situation.memory)
    (hholder : situation.memory.initialized scope.holder = true)
    (hraised : outcome machine scope response situation choice data (.staticPut reference value)
      = .raised exception later) :
    Holds machine scope origin (scope.withoutEffectOf body (scope.afterStaticPut facts reference value)
      (.staticPut reference value)) env later.memory := by
  simp only [outcome] at hraised
  simp only [Scope.withoutEffectOf, Scope.afterStaticPut]
  cases htracked : scope.trackedField? reference true with
  | none =>
    rw [htracked] at hraised
    exact h.unknownCode (.inr ⟨exception, hraised⟩)
  | some definition =>
    rw [htracked] at hraised
    obtain ⟨hnot, heq⟩ := initializing_eq_raised hraised fun _ => storing_ne_raised
    rw [heq]
    refine (h.untouch hholder hnot response.memory).forgetStatic (fun _ _ _ _ hfact => ?_)
      (fun isFinal other found hne hfact => ?_) rfl
    · rwa [KnownFields.instanceFact?_recordStatic] at hfact
    · rwa [KnownFields.staticFact?_recordStatic, if_neg hne] at hfact

/-- The facts after an instruction hold without its effect where it has raised an exception. -/
theorem Holds.withoutEffectOf (h : Holds machine scope origin facts env situation.memory)
    (hholder : situation.memory.initialized scope.holder = true)
    (hsummary : ∀ dest kind reference arguments, operation = .invoke dest kind reference arguments →
      scope.initializerSummary? kind reference = none)
    (hraised : outcome machine scope response situation choice data operation = .raised exception later)
    (hafter : scope.after body facts operation = .ok known) :
    Holds machine scope origin (scope.withoutEffectOf body known operation) env later.memory := by
  cases operation
  case instanceGet =>
    cases hafter
    exact h.withoutInstanceGet hraised
  case instancePut =>
    cases hafter
    exact h.withoutInstancePut hraised
  case staticGet =>
    cases hafter
    exact h.withoutStaticGet hholder hraised
  case staticPut =>
    cases hafter
    exact h.withoutStaticPut hholder hraised
  case initClass =>
    cases hafter
    obtain ⟨hnot, heq⟩ := initializing_eq_raised hraised (by rintro _ ⟨⟩)
    rw [heq]
    exact h.untouch hholder hnot response.memory
  case newInstance dest type =>
    cases hafter
    simp only [outcome] at hraised
    split at hraised <;> cases hraised
    exact (h.allocating type).unmark type
  case invoke dest kind reference arguments =>
    have hnone := hsummary dest kind reference arguments rfl
    simp only [outcome, hnone] at hraised
    simp only [Scope.after, Scope.afterInvoke, hnone] at hafter
    cases hafter
    exact h.unknownCode (.inr ⟨exception, hraised⟩)
  case invokeCustom | monitorEnter =>
    cases hafter
    exact h.unknownCode (.inr ⟨exception, hraised⟩)
  case argument | constNumber | constNull | debugLocalRead | constString | moveException | goto | branch | switch
      | «return» => cases hraised
  case assume =>
    simp only [outcome] at hraised
    split at hraised <;> cases hraised
  case throw =>
    cases hafter
    simp only [outcome] at hraised
    split at hraised <;> cases hraised
    exact h
  all_goals
    cases hafter
    simp only [outcome] at hraised
    rw [memory_of_quiet (.inr ⟨exception, hraised⟩)]
    exact h

end Raises

/-! ### Instructions that leave facts alone -/

theorem after_of_isTerminator {operation : Operation} (h : operation.isTerminator = true) :
    scope.after body facts operation = .ok facts := by
  cases operation <;> first | rfl | cases h

theorem after_of_canThrow_eq_false {operation : Operation} (h : operation.canThrow = false) :
    scope.after body facts operation = .ok facts := by
  cases operation <;> first | rfl | cases h

/-- Taking back the effect of an instruction that has not been raised leaves nothing new. -/
theorem Holds.dropEffect {memory : Memory Datum Address} (h : Holds machine scope origin facts env memory)
    (operation : Operation) : Holds machine scope origin (scope.withoutEffectOf body facts operation) env memory := by
  have hinstance : ∀ field object,
      Holds machine scope origin { facts with fields := facts.fields.forgetInstance field object } env memory :=
    fun field object => h.forgetInstance (fun _ _ _ _ _ hfact => hfact) (fun _ _ _ hfact => hfact) rfl
  have hunmark : ∀ type, Holds machine scope origin (facts.unmarkInitialized type) env memory := fun type =>
    h.subset (fun _ _ _ _ hfact => hfact) (fun _ _ _ hfact => hfact) fun _ hother => List.mem_of_mem_filter hother
  have hstatic : ∀ field type, Holds machine scope origin
      (Facts.unmarkInitialized { facts with fields := facts.fields.forgetStatic field } type) env memory :=
    fun field type => (hunmark type).forgetStatic (fun _ _ _ _ hfact => hfact) (fun _ _ _ _ hfact => hfact) rfl
  cases operation
  case instanceGet | instancePut =>
    simp only [Scope.withoutEffectOf]
    split
    · exact h
    · exact hinstance _ _
  case staticGet | staticPut =>
    simp only [Scope.withoutEffectOf]
    split
    · exact h
    · exact hstatic _ _
  case initClass | newInstance => exact hunmark _
  all_goals exact h

end Bytecode.LoadElimination
