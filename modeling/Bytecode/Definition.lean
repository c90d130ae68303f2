import Bytecode.Access
import Bytecode.Operation
/-!
# Definitions of classes, methods and fields

A definition carries its own identifier. Which members belong to a class is recorded in the class; a member's
reference names its holder whether or not that type has a definition.
-/

namespace Bytecode

/-- Where a class comes from. Only classes of the program itself can be changed. -/
inductive ClassKind where
  | program
  | classpath
  | library
deriving DecidableEq, Inhabited

/-- A descriptor without the letter L in front and the semicolon behind it; any other text as it is. -/
def binaryName (descriptor : List Char) : List Char :=
  match descriptor with
  | 'L' :: rest => if rest.getLast? = some ';' then rest.dropLast else descriptor
  | _ => descriptor

/-- The part of a type's name before the last slash; empty without a slash. -/
def packageOf (descriptor : String) : String :=
  let reversed := (binaryName descriptor.toList).reverse
  String.ofList (((reversed.dropWhile (· ≠ '/')).drop 1).reverse)

structure ClassDef where
  id : TypeId
  name : String
  kind : ClassKind
  flags : AccessFlags
  superclass : Option TypeId := none
  interfaces : List TypeId := []
  methods : List MethodId := []
  fields : List FieldId := []
  /-- Its class initializer is declared to have no side effects. -/
  quietInitializer : Bool := false
deriving DecidableEq, Inhabited

namespace ClassDef

def isInterface (definition : ClassDef) : Bool :=
  definition.flags.isInterface

def isProgramClass (definition : ClassDef) : Bool :=
  definition.kind == .program

def isLibraryClass (definition : ClassDef) : Bool :=
  definition.kind == .library

def package (definition : ClassDef) : String :=
  packageOf definition.name

/-- The superclass and then the interfaces. -/
def parents (definition : ClassDef) : List TypeId :=
  definition.superclass.toList ++ definition.interfaces

end ClassDef

structure MethodDef where
  id : MethodId
  reference : MethodRef
  flags : AccessFlags
deriving DecidableEq, Inhabited

namespace MethodDef

def holder (definition : MethodDef) : TypeId :=
  definition.reference.holder

def isStatic (definition : MethodDef) : Bool :=
  definition.flags.isStatic

def isAbstract (definition : MethodDef) : Bool :=
  definition.flags.isAbstract

def isBridge (definition : MethodDef) : Bool :=
  definition.flags.isBridge

def isInstanceInitializer (definition : MethodDef) : Bool :=
  !definition.isStatic && definition.reference.isInstanceInitializer

def isClassInitializer (definition : MethodDef) : Bool :=
  definition.isStatic && definition.reference.name == "<clinit>"

/-- Takes part in dynamic dispatch. -/
def isVirtual (definition : MethodDef) : Bool :=
  !definition.isStatic && !definition.flags.isPrivate && !definition.reference.isInstanceInitializer

def visibility (definition : MethodDef) : Visibility :=
  definition.flags.visibility

end MethodDef

structure FieldDef where
  id : FieldId
  reference : FieldRef
  flags : AccessFlags
  /-- Known to be unused. -/
  isDead : Bool := false
deriving DecidableEq, Inhabited

namespace FieldDef

def holder (definition : FieldDef) : TypeId :=
  definition.reference.holder

def isStatic (definition : FieldDef) : Bool :=
  definition.flags.isStatic

def isFinal (definition : FieldDef) : Bool :=
  definition.flags.isFinal

def isVolatile (definition : FieldDef) : Bool :=
  definition.flags.isVolatile

def isWide (definition : FieldDef) : Bool :=
  definition.reference.isWide

def visibility (definition : FieldDef) : Visibility :=
  definition.flags.visibility

end FieldDef

/-- What an instance initializer leaves in a field: one of its arguments or a constant. -/
inductive FieldInitialization where
  | argument (index : Nat)
  | constant (value : Constant)
deriving DecidableEq, Inhabited

/-- What is known of an instance initializer: the fields it sets on its receiver, in order, and whether it may do
anything else that is visible outside. -/
structure InitializerSummary where
  fields : List (FieldId × FieldInitialization) := []
  hasOtherEffects : Bool := false
deriving DecidableEq, Inhabited

namespace InitializerSummary

/-- The summary of an initializer nothing is known of. -/
def unknown : InitializerSummary :=
  { hasOtherEffects := true }

def withField (summary : InitializerSummary) (field : FieldId) (initialization : FieldInitialization) :
    InitializerSummary :=
  { summary with fields := summary.fields ++ [(field, initialization)] }

def withOtherEffects (summary : InitializerSummary) : InitializerSummary :=
  { summary with hasOtherEffects := true }

end InitializerSummary

end Bytecode
