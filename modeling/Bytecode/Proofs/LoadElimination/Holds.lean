import Bytecode.Proofs.Execution.Settled
import Bytecode.Proofs.LoadElimination.Mentions
/-!
# When facts hold

Facts hold in an environment and a memory if every field that they speak of contains what they say. A receiver is the end
of an alias chain and need not be defined itself; the value that it stands for is its origin. A fact on an instance field
also says that the origin of its receiver refers to an object, a fact on a static field that the class is initialized, and a fact
on a final field that the field has its value, so that no operation changes it any more.

The facts after an instruction hold where it has gone on, if those before it held where it started. Where it has raised an
exception, they hold without its effect.
-/

namespace Bytecode.LoadElimination

open Execution

variable {Datum Address World : Type}

section Meaning

variable (machine : Machine Datum Address World) (scope : Scope) (origin : ValueId → ValueId)

/-- A known value stands for a datum. -/
def Denotes (env : ValueId → Option Datum) (memory : Memory Datum Address) (datum : Datum) : Known → Prop
  | .existing value => env value = some datum
  | .constant (.number value) => datum = machine.number value
  | .constant .null => datum = machine.null
  | .constant (.string text) => datum = machine.string text
  | .constant (.staticField reference) =>
    ∃ definition, scope.trackedField? reference true = some definition ∧
      scope.program.isFinalField definition.id = true ∧ memory.settledStatic definition.id = true ∧
      memory.initialized definition.holder = true ∧ datum = memory.staticField definition.id

/-- What a fact on an instance field says. -/
def InstanceHolds (env : ValueId → Option Datum) (memory : Memory Datum Address) (isFinal : Bool) (field : FieldId)
    (receiver : ValueId) (known : Known) : Prop :=
  ∃ object address, env (origin receiver) = some object ∧ machine.address? object = some address ∧
    Denotes machine scope env memory (memory.instanceField address field) known ∧
    (isFinal = true → scope.program.isFinalField field = true ∧ memory.settledInstance address field = true)

/-- What a fact on a static field says. -/
def StaticHolds (env : ValueId → Option Datum) (memory : Memory Datum Address) (isFinal : Bool) (field : FieldId)
    (known : Known) : Prop :=
  Denotes machine scope env memory (memory.staticField field) known ∧
    (∀ definition, scope.program.field? field = some definition → memory.initialized definition.holder = true) ∧
    (isFinal = true → scope.program.isFinalField field = true ∧ memory.settledStatic field = true)

structure Holds (facts : Facts) (env : ValueId → Option Datum) (memory : Memory Datum Address) : Prop where
  instanceField : ∀ isFinal field receiver known,
    facts.fields.instanceFact? isFinal field receiver = some known →
    InstanceHolds machine scope origin env memory isFinal field receiver known
  staticField : ∀ isFinal field known, facts.fields.staticFact? isFinal field = some known →
    StaticHolds machine scope env memory isFinal field known
  initialized : ∀ type ∈ facts.initialized, memory.initialized type = true

end Meaning

/-- Whatever is defined keeps its datum. -/
def Extends (env later : ValueId → Option Datum) : Prop :=
  ∀ value datum, env value = some datum → later value = some datum

theorem Extends.refl (env : ValueId → Option Datum) : Extends env env :=
  fun _ _ h => h

/-- Defining a value that is undefined keeps everything. -/
theorem extends_assign {env : ValueId → Option Datum} {dest : Option ValueId}
    (h : ∀ value, dest = some value → env value = none) (result : Datum) : Extends env (assign env dest result) := by
  intro value datum hvalue
  rw [assign_of_ne, hvalue]
  intro hdest
  rw [h value hdest] at hvalue
  cases hvalue

variable {machine : Machine Datum Address World} {scope : Scope} {origin : ValueId → ValueId}
  {env later : ValueId → Option Datum}
  {memory after : Memory Datum Address} {facts : Facts}

/-! ### What keeps facts true -/

theorem Denotes.mono {datum : Datum} {known : Known} (h : Denotes machine scope env memory datum known)
    (henv : Extends env later) (hkeeps : Memory.KeepsSettled scope.program.isFinalField memory after) :
    Denotes machine scope later after datum known := by
  cases known with
  | existing value => exact henv value datum h
  | constant constant =>
    cases constant with
    | number | null | string => exact h
    | staticField reference =>
      obtain ⟨definition, htracked, hfinal, hsettled, hinitialized, rfl⟩ := h
      exact ⟨definition, htracked, hfinal, hkeeps.settledStatic _ hsettled, hkeeps.initialized _ hinitialized,
        (hkeeps.staticField _ hfinal hsettled).symm⟩

theorem InstanceHolds.mono {isFinal : Bool} {field : FieldId} {receiver : ValueId} {known : Known}
    (h : InstanceHolds machine scope origin env memory isFinal field receiver known) (henv : Extends env later)
    (hkeeps : Memory.KeepsSettled scope.program.isFinalField memory after)
    (hfield : isFinal = true ∨ ∀ address, after.instanceField address field = memory.instanceField address field) :
    InstanceHolds machine scope origin later after isFinal field receiver known := by
  obtain ⟨object, address, hobject, haddress, hdenotes, hfinal⟩ := h
  refine ⟨object, address, henv _ object hobject, haddress, ?_, fun hpart => ?_⟩
  · have hsame : after.instanceField address field = memory.instanceField address field := by
      rcases hfield with hpart | hsame
      · exact hkeeps.instanceField address field (hfinal hpart).1 (hfinal hpart).2
      · exact hsame address
    rw [hsame]
    exact hdenotes.mono henv hkeeps
  · exact ⟨(hfinal hpart).1, hkeeps.settledInstance address field (hfinal hpart).2⟩

theorem StaticHolds.mono {isFinal : Bool} {field : FieldId} {known : Known}
    (h : StaticHolds machine scope env memory isFinal field known) (henv : Extends env later)
    (hkeeps : Memory.KeepsSettled scope.program.isFinalField memory after)
    (hfield : isFinal = true ∨ after.staticField field = memory.staticField field) :
    StaticHolds machine scope later after isFinal field known := by
  obtain ⟨hdenotes, hinitialized, hfinal⟩ := h
  refine ⟨?_, fun definition hdefinition => hkeeps.initialized _ (hinitialized definition hdefinition), fun hpart => ?_⟩
  · have hsame : after.staticField field = memory.staticField field := by
      rcases hfield with hpart | hsame
      · exact hkeeps.staticField field (hfinal hpart).1 (hfinal hpart).2
      · exact hsame
    rw [hsame]
    exact hdenotes.mono henv hkeeps
  · exact ⟨(hfinal hpart).1, hkeeps.settledStatic field (hfinal hpart).2⟩

namespace Holds

/-- Facts hold on if they are among facts that held and speak of final fields or of fields that did not change. -/
theorem mono {fewer : Facts} (h : Holds machine scope origin facts env memory) (henv : Extends env later)
    (hkeeps : Memory.KeepsSettled scope.program.isFinalField memory after)
    (hinstance : ∀ isFinal field receiver known, fewer.fields.instanceFact? isFinal field receiver = some known →
      facts.fields.instanceFact? isFinal field receiver = some known ∧
        (isFinal = true ∨ ∀ address, after.instanceField address field = memory.instanceField address field))
    (hstatic : ∀ isFinal field known, fewer.fields.staticFact? isFinal field = some known →
      facts.fields.staticFact? isFinal field = some known ∧
        (isFinal = true ∨ after.staticField field = memory.staticField field))
    (hinitialized : ∀ type ∈ fewer.initialized, type ∈ facts.initialized ∨ after.initialized type = true) :
    Holds machine scope origin fewer later after where
  instanceField isFinal field receiver known hfact := by
    obtain ⟨hold, hfield⟩ := hinstance isFinal field receiver known hfact
    exact (h.instanceField isFinal field receiver known hold).mono henv hkeeps hfield
  staticField isFinal field known hfact := by
    obtain ⟨hold, hfield⟩ := hstatic isFinal field known hfact
    exact (h.staticField isFinal field known hold).mono henv hkeeps hfield
  initialized type htype := by
    rcases hinitialized type htype with hold | hnew
    · exact hkeeps.initialized type (h.initialized type hold)
    · exact hnew

theorem empty (env : ValueId → Option Datum) (memory : Memory Datum Address) : Holds machine scope origin {} env memory where
  instanceField isFinal field receiver known hfact := by simp at hfact
  staticField isFinal field known hfact := by simp at hfact
  initialized type htype := by cases htype

/-- The memory has not changed. -/
theorem extend (h : Holds machine scope origin facts env memory) (henv : Extends env later) :
    Holds machine scope origin facts later memory :=
  h.mono henv (.refl _ _) (fun _ _ _ _ hfact => ⟨hfact, .inr fun _ => rfl⟩)
    (fun _ _ _ hfact => ⟨hfact, .inr rfl⟩) fun _ htype => .inl htype

/-- Code that is not known has been run. -/
theorem clearNonFinal (h : Holds machine scope origin facts env memory) (henv : Extends env later)
    (hkeeps : Memory.KeepsSettled scope.program.isFinalField memory after) :
    Holds machine scope origin facts.clearNonFinal later after := by
  refine h.mono henv hkeeps (fun isFinal field receiver known hfact => ?_) (fun isFinal field known hfact => ?_)
    fun type htype => .inl htype
  · rw [Facts.clearNonFinal, KnownFields.instanceFact?_clearNonFinal] at hfact
    split at hfact
    · rename_i hfinal
      exact ⟨hfact, .inl hfinal⟩
    · cases hfact
  · rw [Facts.clearNonFinal, KnownFields.staticFact?_clearNonFinal] at hfact
    split at hfact
    · rename_i hfinal
      exact ⟨hfact, .inl hfinal⟩
    · cases hfact

theorem markInitialized (h : Holds machine scope origin facts env memory) {type : TypeId}
    (htype : memory.initialized type = true) : Holds machine scope origin (facts.markInitialized type) env memory := by
  unfold Facts.markInitialized
  split
  · exact h
  · refine ⟨h.instanceField, h.staticField, fun other hother => ?_⟩
    rcases List.mem_cons.1 hother with rfl | hold
    · exact htype
    · exact h.initialized other hold

theorem recordInstance (h : Holds machine scope origin facts env memory) {isFinal : Bool} {field : FieldId}
    {receiver : ValueId} {known : Known} (hnew : InstanceHolds machine scope origin env memory isFinal field receiver known) :
    Holds machine scope origin { facts with fields := facts.fields.recordInstance isFinal field receiver known } env memory where
  instanceField part other object found hfact := by
    rw [KnownFields.instanceFact?_recordInstance] at hfact
    split at hfact
    · rename_i hkey
      obtain ⟨rfl, rfl⟩ := hkey
      split at hfact
      · rename_i hpart
        cases hfact
        exact hpart ▸ hnew
      · cases hfact
    · exact h.instanceField part other object found hfact
  staticField part other found hfact := by
    rw [KnownFields.staticFact?_recordInstance] at hfact
    exact h.staticField part other found hfact
  initialized := h.initialized

theorem recordStatic (h : Holds machine scope origin facts env memory) {isFinal : Bool} {field : FieldId} {known : Known}
    (hnew : StaticHolds machine scope env memory isFinal field known) :
    Holds machine scope origin { facts with fields := facts.fields.recordStatic isFinal field known } env memory where
  instanceField part other object found hfact := by
    rw [KnownFields.instanceFact?_recordStatic] at hfact
    exact h.instanceField part other object found hfact
  staticField part other found hfact := by
    rw [KnownFields.staticFact?_recordStatic] at hfact
    split at hfact
    · rename_i hkey
      subst hkey
      split at hfact
      · rename_i hpart
        cases hfact
        exact hpart ▸ hnew
      · cases hfact
    · exact h.staticField part other found hfact
  initialized := h.initialized

end Holds

end Bytecode.LoadElimination
