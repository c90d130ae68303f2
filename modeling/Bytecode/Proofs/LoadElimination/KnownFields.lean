import Bytecode.KnownFields
import Mathlib.Logic.Basic
/-!
# Known fields as two views

What is known of fields is looked at through two functions, one for instance fields and one for static fields, each taking
the part of the facts, final or not, that is asked. Every operation on the facts is described by what it does to these
two views.
-/

namespace Bytecode

namespace Table

variable {κ ν : Type} [DecidableEq κ]

private theorem contains_eq_isSome (table : Table κ ν) (key : κ) : table.contains key = (table.find? key).isSome := by
  rw [Bool.eq_iff_iff, contains, find?, Option.isSome_map, List.find?_isSome, List.any_eq_true]

private theorem find?_eq_none_of_isEmpty {table : Table κ ν} (h : table.isEmpty = true) (key : κ) :
    table.find? key = none := by
  rw [find?, List.isEmpty_iff.1 h]
  rfl

end Table

namespace ReceiverTable

@[simp] theorem lookup?_empty (field : FieldId) (object : ValueId) :
    lookup? Table.empty field object = none :=
  rfl

private theorem lookup?_record (table : ReceiverTable) (field other : FieldId) (object receiver : ValueId)
    (known : Known) :
    (table.record field object known).lookup? other receiver
      = if other = field ∧ receiver = object then some known else table.lookup? other receiver := by
  rw [lookup?, record, Table.find?_insert]
  by_cases hfield : other = field
  · subst hfield
    by_cases hobject : receiver = object
    · simp [hobject, Table.find?_insert]
    · cases hfound : table.find? other <;> simp [hobject, hfound, lookup?, Table.find?_insert]
  · simp [hfield, lookup?]

private theorem lookup?_erase (table : ReceiverTable) (field other : FieldId) (receiver : ValueId) :
    lookup? (table.erase field) other receiver = if other = field then none else table.lookup? other receiver := by
  rw [lookup?, Table.find?_erase]
  by_cases hfield : other = field <;> simp [hfield, lookup?]

private theorem lookup?_forget (table : ReceiverTable) (field other : FieldId) (object receiver : ValueId) :
    (table.forget field object).lookup? other receiver
      = if other = field ∧ receiver = object then none else table.lookup? other receiver := by
  unfold forget
  cases hfound : table.find? field with
  | none =>
    by_cases hfield : other = field
    · simp [hfield, lookup?, hfound]
    · simp [hfield]
  | some receivers =>
    dsimp only
    have hrest : ∀ receiver, receiver ≠ object → (receivers.erase object).find? receiver = receivers.find? receiver := by
      intro receiver hne
      rw [Table.find?_erase, if_neg hne]
    by_cases hcontains : receivers.contains object = true
    · rw [if_pos hcontains]
      by_cases hempty : (receivers.erase object).isEmpty = true
      · -- the field goes with its last receiver
        rw [if_pos hempty, lookup?_erase]
        by_cases hfield : other = field
        · by_cases hobject : receiver = object
          · simp [hfield, hobject]
          · have hnone := Table.find?_eq_none_of_isEmpty hempty receiver
            rw [hrest receiver hobject] at hnone
            simp [hfield, hobject, lookup?, hfound, hnone]
        · simp [hfield]
      · rw [if_neg hempty, lookup?, Table.find?_insert]
        by_cases hfield : other = field
        · by_cases hobject : receiver = object
          · simp [hfield, hobject, Table.find?_erase]
          · simp [hfield, hobject, lookup?, hfound, hrest receiver hobject]
        · simp [hfield, lookup?]
    · rw [if_neg hcontains]
      by_cases hkey : other = field ∧ receiver = object
      · rw [Table.contains_eq_isSome, Option.not_isSome_iff_eq_none] at hcontains
        simp [hkey.1, hkey.2, lookup?, hfound, hcontains]
      · rw [if_neg hkey]

end ReceiverTable

namespace KnownFields

/-! ### The views -/

/-- What one part of the facts says of an instance field. -/
def instanceFact? (facts : KnownFields) (isFinal : Bool) (field : FieldId) (object : ValueId) : Option Known :=
  (if isFinal then facts.finalInstance else facts.nonFinalInstance).lookup? field object

/-- What one part of the facts says of a static field. -/
def staticFact? (facts : KnownFields) (isFinal : Bool) (field : FieldId) : Option Known :=
  (if isFinal then facts.finalStatic else facts.nonFinalStatic).find? field

theorem instance?_eq (facts : KnownFields) (field : FieldId) (object : ValueId) :
    facts.instance? field object = (facts.instanceFact? false field object).or (facts.instanceFact? true field object) :=
  rfl

theorem static?_eq (facts : KnownFields) (field : FieldId) :
    facts.static? field = (facts.staticFact? false field).or (facts.staticFact? true field) :=
  rfl

variable (facts : KnownFields) (isFinal part : Bool) (field other : FieldId) (object receiver : ValueId) (known : Known)

@[simp] theorem instanceFact?_empty : ({} : KnownFields).instanceFact? part other receiver = none := by
  cases part <;> rfl

@[simp] theorem staticFact?_empty : ({} : KnownFields).staticFact? part other = none := by
  cases part <;> rfl

/-! ### Recording -/

theorem instanceFact?_recordInstance :
    (facts.recordInstance isFinal field object known).instanceFact? part other receiver
      = if other = field ∧ receiver = object then (if part = isFinal then some known else none)
        else facts.instanceFact? part other receiver := by
  cases isFinal <;> cases part <;>
    simp [recordInstance, instanceFact?, ReceiverTable.lookup?_record, ReceiverTable.lookup?_forget]

theorem instance?_recordInstance :
    (facts.recordInstance isFinal field object known).instance? other receiver
      = if other = field ∧ receiver = object then some known else facts.instance? other receiver := by
  simp only [instance?_eq, instanceFact?_recordInstance]
  split
  · cases isFinal <;> rfl
  · rfl

@[simp] theorem staticFact?_recordInstance :
    (facts.recordInstance isFinal field object known).staticFact? part other = facts.staticFact? part other := by
  cases isFinal <;> rfl

@[simp] theorem instanceFact?_recordStatic :
    (facts.recordStatic isFinal field known).instanceFact? part other receiver
      = facts.instanceFact? part other receiver := by
  cases isFinal <;> rfl

theorem staticFact?_recordStatic :
    (facts.recordStatic isFinal field known).staticFact? part other
      = if other = field then (if part = isFinal then some known else none) else facts.staticFact? part other := by
  cases isFinal <;> cases part <;>
    simp [recordStatic, staticFact?, Table.find?_insert, Table.find?_erase]

/-! ### Forgetting -/

theorem instanceFact?_forgetInstance :
    (facts.forgetInstance field object).instanceFact? part other receiver
      = if other = field ∧ receiver = object then none else facts.instanceFact? part other receiver := by
  cases part <;> simp [forgetInstance, instanceFact?, ReceiverTable.lookup?_forget]

@[simp] theorem staticFact?_forgetInstance :
    (facts.forgetInstance field object).staticFact? part other = facts.staticFact? part other :=
  rfl

theorem instanceFact?_forgetNonFinalInstances :
    (facts.forgetNonFinalInstances field).instanceFact? part other receiver
      = if part = false ∧ other = field then none else facts.instanceFact? part other receiver := by
  cases part <;> simp [forgetNonFinalInstances, instanceFact?, ReceiverTable.lookup?_erase]

@[simp] theorem staticFact?_forgetNonFinalInstances :
    (facts.forgetNonFinalInstances field).staticFact? part other = facts.staticFact? part other :=
  rfl

@[simp] theorem instanceFact?_forgetStatic :
    (facts.forgetStatic field).instanceFact? part other receiver = facts.instanceFact? part other receiver :=
  rfl

theorem staticFact?_forgetStatic :
    (facts.forgetStatic field).staticFact? part other
      = if other = field then none else facts.staticFact? part other := by
  cases part <;> simp [forgetStatic, staticFact?, Table.find?_erase]

@[simp] theorem instanceFact?_forgetNonFinalStatic :
    (facts.forgetNonFinalStatic field).instanceFact? part other receiver = facts.instanceFact? part other receiver :=
  rfl

theorem staticFact?_forgetNonFinalStatic :
    (facts.forgetNonFinalStatic field).staticFact? part other
      = if part = false ∧ other = field then none else facts.staticFact? part other := by
  cases part <;> simp [forgetNonFinalStatic, staticFact?, Table.find?_erase]

@[simp] theorem instanceFact?_clearNonFinalInstances :
    facts.clearNonFinalInstances.instanceFact? part other receiver
      = if part then facts.instanceFact? part other receiver else none := by
  cases part <;> rfl

@[simp] theorem staticFact?_clearNonFinalInstances :
    facts.clearNonFinalInstances.staticFact? part other = facts.staticFact? part other :=
  rfl

@[simp] theorem instanceFact?_clearNonFinalStatics :
    facts.clearNonFinalStatics.instanceFact? part other receiver = facts.instanceFact? part other receiver :=
  rfl

@[simp] theorem staticFact?_clearNonFinalStatics :
    facts.clearNonFinalStatics.staticFact? part other = if part then facts.staticFact? part other else none := by
  cases part <;> rfl

@[simp] theorem instanceFact?_clearNonFinal :
    facts.clearNonFinal.instanceFact? part other receiver
      = if part then facts.instanceFact? part other receiver else none := by
  cases part <;> rfl

@[simp] theorem staticFact?_clearNonFinal :
    facts.clearNonFinal.staticFact? part other = if part then facts.staticFact? part other else none := by
  cases part <;> rfl

end KnownFields

end Bytecode
