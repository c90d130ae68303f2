import Bytecode.Proofs.Execution.Aliases
import Bytecode.Proofs.LoadElimination.Elimination
import Bytecode.Proofs.LoadElimination.Transfer
/-!
# Redundant instructions do nothing

Where facts hold, an instruction that they make redundant goes on and changes nothing but its result, and the result is
what the facts say: the value that is used in its place holds it, and the constant that is created in its place is it.

Facts depend on the environment only through the values that they name, as the receivers of fields or as what fields
hold. So they survive on the way to another block if that defines none of these.
-/

namespace Bytecode.LoadElimination

open Execution

/-! ### Receivers -/

/-- Something is known of a field of the object that the value refers to. -/
def Receives (fields : KnownFields) (value : ValueId) : Prop :=
  ∃ part field known, fields.instanceFact? part field value = some known

section Receivers

variable {scope : Scope} {body : Body} {fields : KnownFields} {facts later : Facts} {value : ValueId}

theorem not_receives_empty (value : ValueId) : ¬Receives {} value := by
  simp [Receives]

/-- Forgetting leaves no new receivers. -/
theorem Receives.mono {fewer : KnownFields} (h : Receives fewer value)
    (hinstance : ∀ part field object known, fewer.instanceFact? part field object = some known →
      fields.instanceFact? part field object = some known) : Receives fields value := by
  obtain ⟨part, field, known, hfact⟩ := h
  exact ⟨part, field, known, hinstance part field value known hfact⟩

theorem Receives.of_recordInstance {isFinal : Bool} {field : FieldId} {object : ValueId} {known : Known}
    (h : Receives (fields.recordInstance isFinal field object known) value) : Receives fields value ∨ value = object := by
  obtain ⟨part, other, found, hfact⟩ := h
  rw [KnownFields.instanceFact?_recordInstance] at hfact
  split at hfact
  · rename_i hkey
    exact .inr hkey.2
  · exact .inl ⟨part, other, found, hfact⟩

theorem Receives.of_recordStatic {isFinal : Bool} {field : FieldId} {known : Known}
    (h : Receives (fields.recordStatic isFinal field known) value) : Receives fields value :=
  h.mono fun part other object found hfact => by rwa [KnownFields.instanceFact?_recordStatic] at hfact

theorem Receives.of_clearNonFinal (h : Receives fields.clearNonFinal value) : Receives fields value :=
  h.mono fun part other object found hfact => by
    rw [KnownFields.instanceFact?_clearNonFinal] at hfact
    cases part <;> simp_all

theorem Receives.of_forgetInstance {field : FieldId} {object : ValueId}
    (h : Receives (fields.forgetInstance field object) value) : Receives fields value :=
  h.mono fun part other receiver found hfact => by
    rw [KnownFields.instanceFact?_forgetInstance] at hfact
    split at hfact
    · cases hfact
    · exact hfact

theorem Receives.of_forgetNonFinalInstances {field : FieldId}
    (h : Receives (fields.forgetNonFinalInstances field) value) : Receives fields value :=
  h.mono fun part other receiver found hfact => by
    rw [KnownFields.instanceFact?_forgetNonFinalInstances] at hfact
    split at hfact
    · cases hfact
    · exact hfact

theorem Receives.of_touch {type : TypeId} (h : Receives (scope.touch facts type).fields value) :
    Receives facts.fields value := by
  unfold Scope.touch at h
  rw [Scope.fields_markInitialized] at h
  split at h
  · exact h
  · exact h

private theorem Receives.of_afterInvoke {kind : InvokeKind} {reference : MethodRef} {arguments : List ValueId}
    (hafter : scope.afterInvoke body facts kind reference arguments = .ok later) (h : Receives later.fields value) :
    Receives facts.fields value ∨ ∃ operand ∈ arguments, value = body.aliasRoot operand := by
  unfold Scope.afterInvoke at hafter
  split at hafter
  · rename_i summary receiver rest _
    simp only [bind, Except.bind] at hafter
    split at hafter
    · cases hafter
    · rename_i fields hfold
      obtain rfl := Except.ok.inj hafter
      refine foldlM_reaches (fun _ fields => ∀ value, Receives fields value → Receives facts.fields value ∨
        ∃ operand ∈ receiver :: rest, value = body.aliasRoot operand) hfold (fun value hvalue => ?_) ?_ value h
      · split at hvalue
        · exact .inl hvalue.of_clearNonFinal
        · exact .inl hvalue
      · intro _ ⟨field, source⟩ _ fields next _ hfields hentry value hvalue
        obtain ⟨definition, -, rfl | ⟨known, -, -, rfl⟩⟩ := Scope.afterFieldInitialization_cases hentry
        · exact hfields value hvalue.of_forgetInstance.of_forgetNonFinalInstances
        · rcases hvalue.of_recordInstance with hold | rfl
          · exact hfields value hold.of_forgetInstance.of_forgetNonFinalInstances
          · exact .inr ⟨receiver, List.mem_cons_self, rfl⟩
  · obtain rfl := Except.ok.inj hafter
    exact .inl h.of_clearNonFinal

/-- A new receiver is the end of an operand's alias chain. -/
theorem Receives.of_after {operation : Operation} (hafter : scope.after body facts operation = .ok later)
    (h : Receives later.fields value) :
    Receives facts.fields value ∨ ∃ operand ∈ operation.operands, value = body.aliasRoot operand := by
  cases operation
  case instanceGet dest object reference =>
    obtain rfl := Except.ok.inj hafter
    unfold Scope.afterInstanceGet at h
    split at h
    · exact .inl h.of_clearNonFinal
    · split at h
      · exact .inl h
      · rcases h.of_recordInstance with hold | rfl
        · exact .inl hold
        · exact .inr ⟨object, List.mem_cons_self, rfl⟩
  case instancePut object reference written =>
    obtain rfl := Except.ok.inj hafter
    unfold Scope.afterInstancePut at h
    split at h
    · exact .inl h.of_clearNonFinal
    · rcases h.of_recordInstance with hold | rfl
      · exact .inl hold.of_forgetNonFinalInstances
      · exact .inr ⟨object, List.mem_cons_self, rfl⟩
  case staticGet =>
    obtain rfl := Except.ok.inj hafter
    unfold Scope.afterStaticGet at h
    split at h
    · exact .inl h.of_clearNonFinal
    · dsimp only at h
      split at h
      · exact .inl h.of_touch
      · exact .inl h.of_recordStatic.of_touch
  case staticPut =>
    obtain rfl := Except.ok.inj hafter
    unfold Scope.afterStaticPut at h
    split at h
    · exact .inl h.of_clearNonFinal
    · exact .inl h.of_recordStatic.of_touch
  case initClass =>
    obtain rfl := Except.ok.inj hafter
    exact .inl h.of_touch
  case newInstance =>
    obtain rfl := Except.ok.inj hafter
    unfold Scope.afterNewInstance at h
    rw [Scope.fields_markInitialized] at h
    split at h
    · exact .inl h.of_clearNonFinal
    · exact .inl h
  case invoke => exact h.of_afterInvoke hafter
  case invokeCustom | monitorEnter =>
    obtain rfl := Except.ok.inj hafter
    exact .inl h.of_clearNonFinal
  all_goals
    obtain rfl := Except.ok.inj hafter
    exact .inl h

theorem Receives.of_passedFacts {block : Block} {successor : Nat}
    (h : Receives (passedFacts scope body block facts successor).fields value) : Receives facts.fields value := by
  unfold passedFacts at h
  split at h
  · exact h
  · split at h
    · exact absurd h (not_receives_empty value)
    · split at h
      · unfold Scope.withoutEffectOf at h
        repeat' split at h
        all_goals first | exact h | exact h.of_forgetInstance
      · exact h

end Receivers

variable {Datum Address World : Type} {machine : Machine Datum Address World} {scope : Scope}
  {origin : ValueId → ValueId} {body : Body} {env later : ValueId → Option Datum} {facts : Facts}

/-- Facts hold in an environment that agrees on the values that they name. -/
theorem Holds.congr {memory : Memory Datum Address} (h : Holds machine scope origin facts env memory)
    (hmentions : ∀ value, Mentions facts.fields value → later value = env value)
    (hreceives : ∀ value, Receives facts.fields value → later (origin value) = env (origin value)) :
    Holds machine scope origin facts later memory := by
  have hdenotes : ∀ datum known, (∀ value, known = .existing value → Mentions facts.fields value) →
      Denotes machine scope env memory datum known → Denotes machine scope later memory datum known := by
    intro datum known hknown hold
    cases known with
    | existing value => exact (hmentions value (hknown value rfl)).trans hold
    | constant constant => cases constant <;> exact hold
  refine ⟨fun part field receiver known hfact => ?_, fun part field known hfact => ?_, h.initialized⟩
  · obtain ⟨object, address, hobject, haddress, hholds, hfinal⟩ := h.instanceField part field receiver known hfact
    refine ⟨object, address, (hreceives receiver ⟨part, field, known, hfact⟩).trans hobject, haddress,
      hdenotes _ known (fun value heq => .inl ⟨part, field, receiver, heq ▸ hfact⟩) hholds, hfinal⟩
  · obtain ⟨hholds, hrest⟩ := h.staticField part field known hfact
    exact ⟨hdenotes _ known (fun value heq => .inr ⟨part, field, heq ▸ hfact⟩) hholds, hrest⟩

/-! ### Redundant instructions -/

section Redundancy

variable [DecidableEq Address] {data : List Datum} {situation : Situation Datum Address World}

/-- A read whose value is known goes on with that value. -/
theorem Holds.knownRead (hcoherent : scope.program.Coherent) (h : Holds machine scope origin facts env situation.memory)
    {operation : Operation} (hdata : operation.operands.mapM env = some data) (hroots : RootsAgree body origin env operation)
    {known : Known} (hread : scope.knownRead? body facts operation = some known) :
    ∃ datum, perform machine scope operation data situation = .done datum situation ∧
      Denotes machine scope env situation.memory datum known := by
  unfold Scope.knownRead? at hread
  split at hread
  · rename_i dest object reference
    obtain ⟨definition, htracked, hread⟩ := Option.bind_eq_some_iff.1 hread
    obtain ⟨part, hfact⟩ : ∃ part,
        facts.fields.instanceFact? part definition.id (body.aliasRoot object) = some known := by
      rw [KnownFields.instance?_eq] at hread
      rcases Option.or_eq_some_iff.1 hread with hfact | ⟨-, hfact⟩
      · exact ⟨false, hfact⟩
      · exact ⟨true, hfact⟩
    obtain ⟨root, address, hroot, haddress, hdenotes, -⟩ := h.instanceField _ _ _ _ hfact
    obtain ⟨datum, rest, rfl⟩ : ∃ datum rest, data = datum :: rest := by
      cases data with
      | nil => cases map_eq_of_mapM hdata
      | cons datum rest => exact ⟨datum, rest, rfl⟩
    have hobject := hroots object List.mem_cons_self datum (env_of_head hdata rfl)
    obtain rfl := Option.some.inj (hobject.symm.trans hroot)
    refine ⟨situation.memory.instanceField address definition.id, ?_, hdenotes⟩
    simp only [perform, outcome, htracked, dereferencing, List.head?_cons, haddress]
  · rename_i dest reference
    obtain ⟨definition, htracked, hread⟩ := Option.bind_eq_some_iff.1 hread
    obtain ⟨part, hfact⟩ : ∃ part, facts.fields.staticFact? part definition.id = some known := by
      rw [KnownFields.static?_eq] at hread
      rcases Option.or_eq_some_iff.1 hread with hfact | ⟨-, hfact⟩
      · exact ⟨false, hfact⟩
      · exact ⟨true, hfact⟩
    obtain ⟨hdenotes, hinitialized, -⟩ := h.staticField _ _ _ hfact
    refine ⟨situation.memory.staticField definition.id, ?_, hdenotes⟩
    have hholder := hinitialized definition (Scope.field?_of_trackedField? hcoherent htracked)
    simp only [perform, outcome, htracked, initializing, hholder, if_true]
  · cases hread

/-- Creating a known constant goes on with what it stands for. -/
theorem perform_materialize {constant : Constant} {datum : Datum}
    (h : Denotes machine scope env situation.memory datum (.constant constant)) (dest : ValueId) :
    perform machine scope (constant.materialize dest) [] situation = .done datum situation := by
  cases constant with
  | number | null | string =>
    obtain rfl := h
    rfl
  | staticField reference =>
    obtain ⟨definition, htracked, -, -, hinitialized, rfl⟩ := h
    simp only [perform, Constant.materialize, outcome, htracked, initializing, hinitialized, if_true]

/-- The result of a redundant instruction is what is used or created in its place. -/
def Redundancy.Gives (machine : Machine Datum Address World) (scope : Scope) (env : ValueId → Option Datum)
    (situation : Situation Datum Address World) (dest : ValueId) (datum : Datum) : Redundancy → Prop
  | .existingValue _ value => env value = some datum
  | .constantValue _ constant =>
    perform machine scope (constant.materialize dest) [] situation = .done datum situation
  | .initialized _ => True

/-- A redundant instruction goes on and changes nothing but its result. -/
theorem Holds.redundant (hcoherent : scope.program.Coherent) (h : Holds machine scope origin facts env situation.memory)
    {operation : Operation} (hdata : operation.operands.mapM env = some data) (hroots : RootsAgree body origin env operation)
    {redundancy : Redundancy} (hredundant : scope.redundancy? body facts operation = some redundancy) {dest : ValueId}
    (hdest : operation.dest? = some dest) :
    ∃ datum, perform machine scope operation data situation = .done datum situation ∧
      redundancy.Gives machine scope env situation dest datum := by
  rcases Scope.redundancy?_cases hredundant with ⟨found, known, hfound, -, hread, husable⟩ | ⟨found, type, rfl, htype, rfl⟩
  · obtain rfl := Option.some.inj (hfound.symm.trans hdest)
    obtain ⟨datum, hperform, hdenotes⟩ := h.knownRead hcoherent hdata hroots hread
    refine ⟨datum, hperform, ?_⟩
    cases known with
    | existing value =>
      obtain rfl := Option.some.inj husable
      exact hdenotes
    | constant constant =>
      rw [Scope.usable?, Option.ite_none_right_eq_some] at husable
      obtain rfl := Option.some.inj husable.2
      exact perform_materialize hdenotes found
  · refine ⟨machine.null, ?_, trivial⟩
    simp only [perform, outcome, initializing, h.initialized type htype, if_true]

end Redundancy

end Bytecode.LoadElimination
