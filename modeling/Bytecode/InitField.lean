import Bytecode.Event
import Bytecode.Program.Initialization
/-!
# Fields that stand for initialization checks

An initialization check is in the end a read of a static field of the class, which runs the class initializer just as
the check would. Each class that is checked needs one field which every checking method can use. A field of the class
that fits is taken; otherwise a field is added to the class under a name that no other field of the class has. Classes
outside the program cannot get a field.
-/

namespace Bytecode.InitField

/-- The chosen fields, ascending by class. -/
abbrev InitFields := Table TypeId FieldId

def baseName : String :=
  "$clinit"

def fieldDescriptor : String :=
  "I"

/-- The names to try: the base name, and then the base name with a number. -/
def candidateName : Nat → String
  | 0 => baseName
  | number + 1 => s!"{baseName}${number + 1}"

/-- The first candidate from `number` on that is not taken. -/
def freshName (taken : List String) (number : Nat) : String :=
  if candidateName number ∈ taken then freshName (taken.erase (candidateName number)) (number + 1)
  else candidateName number
termination_by taken.length
decreasing_by
  next htaken =>
  have := List.length_pos_of_mem htaken
  rw [List.length_erase_of_mem htaken]
  omega

/-- A field that can stand for the check: static, in use, one slot wide and visible enough. -/
def isCandidate (required : Visibility) (definition : FieldDef) : Bool :=
  definition.isStatic && !definition.isDead && !definition.isWide && definition.visibility.satisfies required

/-- The first of the most visible candidates. The search stops at a public field. -/
def mostVisible? (required : Visibility) : (best : Option FieldDef) → List FieldDef → Option FieldDef
  | best, [] => best
  | best, definition :: rest =>
    if isCandidate required definition then
      let better := if best.all (·.visibility.isBelow definition.visibility) then some definition else best
      if definition.visibility = .anywhere then better else mostVisible? required better rest
    else mostVisible? required best rest

/-- The field of the class itself that can stand for its checks. -/
def existing? (program : Program) (type : TypeId) (required : Visibility) : Option FieldDef := do
  mostVisible? required none (program.fieldsOf (← program.class? type))

/-- A program under extension, with the fields chosen so far. -/
structure Synthesis where
  program : Program
  chosen : InitFields := .empty
  events : List Event := []

/-- Chooses a field for one class, adding one to a class of the program that has none. -/
def Synthesis.step (synthesis : Synthesis) (requirement : TypeId × Visibility) : Except Error Synthesis := do
  let (type, required) := requirement
  match existing? synthesis.program type required with
  | some definition => return { synthesis with chosen := synthesis.chosen.insert type definition.id }
  | none =>
    match synthesis.program.class? type with
    | none => return synthesis
    | some owner =>
      if owner.isProgramClass then
        let taken := (synthesis.program.fieldsOf owner).map (·.reference.name)
        let name := freshName taken 0
        let (program, field) ← synthesis.program.addStaticField type name fieldDescriptor .generatedConstant
        let event : Event :=
          { kind := .initClassFieldSynthesized, message := s!"{synthesis.program.typeName type}.{name}" }
        return { program, chosen := synthesis.chosen.insert type field, events := synthesis.events ++ [event] }
      else return synthesis

/-- Chooses a field for every class whose initialization some body of the program checks. -/
def synthesize (program : Program) : Except Error Synthesis :=
  program.initRequirements.foldlM Synthesis.step { program }

end Bytecode.InitField
