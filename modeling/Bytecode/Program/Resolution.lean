import Bytecode.Program.Hierarchy
/-!
# What references bind to

A method reference binds to the nearest declaration on its holder's superclass chain. If there is none it binds to a
declaration in an interface of that chain, a method with code before an abstract one. A field reference binds to the
first declaration in the order in which fields are looked for.

A dynamic call may run any declaration that a subtype of the bound method's holder selects. The targets listed here
contain every such method.
-/

namespace Bytecode.Program

/-! ### Methods -/

/-- The first method of the type itself with this signature. -/
def declaredMethod? (program : Program) (name descriptor : String) (type : TypeId) : Option MethodDef := do
  (program.methodsOf (← program.class? type)).find? (·.reference.hasSignature name descriptor)

/-- Among the declarations in the given types, the first with code, otherwise the first. -/
def interfaceMethod? (program : Program) (name descriptor : String) (types : List TypeId) : Option MethodDef :=
  let declared := types.filterMap (program.declaredMethod? name descriptor)
  (declared.find? (!·.isAbstract)).or declared.head?

/-- The declaration that a type offers under this signature. -/
def lookupMethod? (program : Program) (type : TypeId) (name descriptor : String) : Option MethodDef :=
  let chain := program.superclassChain type
  (chain.findSome? (program.declaredMethod? name descriptor)).or
    (program.interfaceMethod? name descriptor (program.superinterfaces chain))

/-- Static invocations bind to static methods and all others to instance methods. -/
def resolveMethod? (program : Program) (kind : InvokeKind) (reference : MethodRef) : Option MethodDef :=
  (program.lookupMethod? reference.holder reference.name reference.descriptor).filter
    fun definition => definition.isStatic == (kind == .static)

/-- A method that a dynamic call can end in. -/
def isDispatchTarget (definition : MethodDef) : Bool :=
  definition.isVirtual && !definition.isAbstract

/-- What a subtype of an interface contributes: an interface its own method with code, a class what it offers. -/
def interfaceTarget? (program : Program) (definition : MethodDef) (lower : TypeId) : Option MethodDef := do
  let owner ← program.class? lower
  if owner.isInterface then
    (program.declaredMethod? definition.reference.name definition.reference.descriptor lower).filter (!·.isAbstract)
  else
    (program.lookupMethod? lower definition.reference.name definition.reference.descriptor).filter isDispatchTarget

/-- The possible targets of a dynamic call that binds to a method of an interface. -/
def interfaceTargets (program : Program) (definition : MethodDef) : List MethodId :=
  let own := if definition.isAbstract then [] else [definition.id]
  let inherited := (program.subtypes definition.holder).filterMap (program.interfaceTarget? definition)
  (own ++ inherited.map (·.id)).eraseDups

/-- The possible targets of a dynamic call that binds to this method. -/
def virtualTargets (program : Program) (definition : MethodDef) : List MethodId :=
  if !definition.isVirtual then [definition.id]
  else if (program.class? definition.holder).any (·.isInterface) then program.interfaceTargets definition
  else
    let own := if definition.isAbstract then [] else [definition.id]
    let overrides := (program.subtypes definition.holder).filterMap fun lower =>
      (program.declaredMethod? definition.reference.name definition.reference.descriptor lower).filter
        isDispatchTarget
    own ++ overrides.map (·.id)

/-! ### Fields -/

/-- The first field of the type itself with this name and descriptor. -/
def declaredField? (program : Program) (reference : FieldRef) (type : TypeId) : Option FieldDef := do
  (program.fieldsOf (← program.class? type)).find? fun definition =>
    definition.reference.name == reference.name && definition.reference.descriptor == reference.descriptor

def resolveField? (program : Program) (reference : FieldRef) : Option FieldDef :=
  (program.fieldSearchOrder reference.holder).findSome? (program.declaredField? reference)

/-- The field if its holder declares it itself. -/
def ownField? (program : Program) (reference : FieldRef) : Option FieldDef :=
  program.declaredField? reference reference.holder

/-- What is written to the field and what is read from it later may be identified: it is not volatile and nothing
outside the program touches it. -/
def mayPropagate (program : Program) (definition : FieldDef) : Bool :=
  !definition.isVolatile && !program.isPinnedField definition.id

/-- The constant can be created in code of the class `context`. -/
def isMaterializable (program : Program) (constant : Constant) (context : TypeId) : Bool :=
  match constant with
  | .number _ | .null | .string _ => true
  | .staticField reference =>
    (program.resolveField? reference).any fun definition =>
      definition.isStatic && program.isAccessible definition.holder definition.visibility context

end Bytecode.Program
