import Bytecode.Program.Hierarchy
/-!
# Class initialization

Touching a class for the first time runs its class initializer and those of its superclasses. Code of a class can rely
on that class and its supertypes being initialized already.
-/

namespace Bytecode.Program

/-- The class itself declares a class initializer. -/
def hasClassInitializer (program : Program) (type : TypeId) : Bool :=
  (program.class? type).any fun definition => (program.methodsOf definition).any (·.isClassInitializer)

/-- Initializing just this type may have side effects: nothing is known of it, or it is not declared quiet and has an
initializer or comes from a library. -/
def mayRunInitializer (program : Program) (type : TypeId) : Bool :=
  match program.class? type with
  | none => true
  | some definition =>
    !definition.quietInitializer && (definition.isLibraryClass || program.hasClassInitializer type)

/-- Initializing a class from code of the class `context` may have side effects. What `context` derives from is
initialized already, and so is everything above that. -/
def initializationHasEffects (program : Program) (type context : TypeId) : Bool :=
  ((program.superclassChain type).takeWhile fun upper => !program.isSubtype context upper).any
    program.mayRunInitializer

/-! ### Checks in the program's bodies -/

/-- The least visibility with which a member of `type` can be used in `context`, apart from `type` itself. -/
def requiredVisibility (program : Program) (type context : TypeId) : Visibility :=
  if packageOf (program.typeName type) = packageOf (program.typeName context) then .inPackage
  else if program.isSubtype context type then .inSubclasses
  else .anywhere

/-- Records a requirement in a list ascending by type, which keeps the most demanding one of each type. -/
def addRequirement (type : TypeId) (visibility : Visibility) :
    List (TypeId × Visibility) → List (TypeId × Visibility)
  | [] => [(type, visibility)]
  | (other, known) :: rest =>
    if type.index < other.index then (type, visibility) :: (other, known) :: rest
    else if type = other then (other, known.max visibility) :: rest
    else (other, known) :: addRequirement type visibility rest

/-- Every initialization check in a body of a program method, with the class the method belongs to. -/
def initCheckSites (program : Program) : List (TypeId × TypeId) :=
  program.programMethods.flatMap fun method =>
    match program.body? method, program.method? method with
    | some body, some definition => body.initChecks.map (·, definition.holder)
    | _, _ => []

/-- The classes whose initialization is checked, ascending, each with the visibility that a member of it needs to be
usable at every check. -/
def initRequirements (program : Program) : List (TypeId × Visibility) :=
  program.initCheckSites.foldl
    (fun known (type, context) => addRequirement type (program.requiredVisibility type context) known) []

end Bytecode.Program
