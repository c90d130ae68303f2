import Bytecode.Operation
import Bytecode.Table
/-!
# Known field values

At a point of a method body some fields are known to hold a value of the body or a constant. Facts about instance
fields are kept per field and receiver, facts about static fields per field. Facts about final fields are kept apart
from the others: only the initializer that is running can write a final field, so its facts outlive whatever unknown
code does. A key stands in at most one of the two parts, and a field without a receiver is not kept.
-/

namespace Bytecode

/-- What a field is known to hold. -/
inductive Known where
  /-- A value that the body has computed already. -/
  | existing (value : ValueId)
  /-- A constant that can be created where it is needed. -/
  | constant (value : Constant)
deriving DecidableEq, Inhabited

/-- What is known of one part of the fields, by field and receiver. -/
abbrev ReceiverTable := Table FieldId (Table ValueId Known)

namespace ReceiverTable

def lookup? (table : ReceiverTable) (field : FieldId) (object : ValueId) : Option Known :=
  (table.find? field).bind (·.find? object)

def record (table : ReceiverTable) (field : FieldId) (object : ValueId) (known : Known) : ReceiverTable :=
  table.insert field (((table.find? field).getD .empty).insert object known)

/-- Forgets one receiver, and the field with its last receiver. -/
def forget (table : ReceiverTable) (field : FieldId) (object : ValueId) : ReceiverTable :=
  match table.find? field with
  | none => table
  | some receivers =>
    if receivers.contains object then
      let rest := receivers.erase object
      if rest.isEmpty then table.erase field else table.insert field rest
    else table

/-- The number of field and receiver pairs. -/
def pairCount (table : ReceiverTable) : Nat :=
  (table.entries.flatMap (·.2.entries)).length

end ReceiverTable

structure KnownFields where
  finalInstance : ReceiverTable := .empty
  nonFinalInstance : ReceiverTable := .empty
  finalStatic : Table FieldId Known := .empty
  nonFinalStatic : Table FieldId Known := .empty
deriving DecidableEq, Inhabited

namespace KnownFields

def isEmpty (facts : KnownFields) : Bool :=
  facts.finalInstance.isEmpty && facts.nonFinalInstance.isEmpty && facts.finalStatic.isEmpty &&
    facts.nonFinalStatic.isEmpty

/-- The number of known facts. -/
def size (facts : KnownFields) : Nat :=
  facts.finalInstance.pairCount + facts.nonFinalInstance.pairCount + facts.finalStatic.size +
    facts.nonFinalStatic.size

def instance? (facts : KnownFields) (field : FieldId) (object : ValueId) : Option Known :=
  (facts.nonFinalInstance.lookup? field object).or (facts.finalInstance.lookup? field object)

def static? (facts : KnownFields) (field : FieldId) : Option Known :=
  (facts.nonFinalStatic.find? field).or (facts.finalStatic.find? field)

/-! ### Recording -/

/-- Whatever was known of the field on this receiver is replaced, in whichever part it stood. -/
def recordInstance (facts : KnownFields) (isFinal : Bool) (field : FieldId) (object : ValueId) (known : Known) :
    KnownFields :=
  if isFinal then
    { facts with
      nonFinalInstance := facts.nonFinalInstance.forget field object
      finalInstance := facts.finalInstance.record field object known }
  else
    { facts with
      finalInstance := facts.finalInstance.forget field object
      nonFinalInstance := facts.nonFinalInstance.record field object known }

/-- Whatever was known of the field is replaced, in whichever part it stood. -/
def recordStatic (facts : KnownFields) (isFinal : Bool) (field : FieldId) (known : Known) : KnownFields :=
  if isFinal then
    { facts with
      nonFinalStatic := facts.nonFinalStatic.erase field
      finalStatic := facts.finalStatic.insert field known }
  else
    { facts with
      finalStatic := facts.finalStatic.erase field
      nonFinalStatic := facts.nonFinalStatic.insert field known }

/-! ### Forgetting -/

/-- Forgets the field on one receiver, in both parts. -/
def forgetInstance (facts : KnownFields) (field : FieldId) (object : ValueId) : KnownFields :=
  { facts with
    finalInstance := facts.finalInstance.forget field object
    nonFinalInstance := facts.nonFinalInstance.forget field object }

/-- Forgets what is not final of the field, on every receiver. -/
def forgetNonFinalInstances (facts : KnownFields) (field : FieldId) : KnownFields :=
  { facts with nonFinalInstance := facts.nonFinalInstance.erase field }

/-- Forgets a static field, in both parts. -/
def forgetStatic (facts : KnownFields) (field : FieldId) : KnownFields :=
  { facts with
    finalStatic := facts.finalStatic.erase field
    nonFinalStatic := facts.nonFinalStatic.erase field }

def forgetNonFinalStatic (facts : KnownFields) (field : FieldId) : KnownFields :=
  { facts with nonFinalStatic := facts.nonFinalStatic.erase field }

def clearNonFinalInstances (facts : KnownFields) : KnownFields :=
  { facts with nonFinalInstance := .empty }

def clearNonFinalStatics (facts : KnownFields) : KnownFields :=
  { facts with nonFinalStatic := .empty }

/-- Forgets everything that unknown code may have changed. -/
def clearNonFinal (facts : KnownFields) : KnownFields :=
  facts.clearNonFinalInstances.clearNonFinalStatics

end KnownFields

end Bytecode
