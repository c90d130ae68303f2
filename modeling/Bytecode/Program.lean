import Bytecode.Body.Builder
import Bytecode.Definition
import Bytecode.Table
/-!
# Programs

A program holds the tables of its types, methods and fields. A type may be known by name only; declaring it gives it a
definition, and declaring it again replaces that definition, so its members so far no longer belong to it. A member
may be declared for a type without a definition and then belongs to no class.

Besides its tables a program holds the bodies of methods, the summaries of instance initializers, the methods that
have been processed and, if the whole program is known to be closed, what is pinned from outside.
-/

namespace Bytecode

structure TypeEntry where
  name : String
  definition : Option ClassDef := none
deriving DecidableEq, Inhabited

/-- What must be kept as it is because code outside the program relies on it. -/
structure Liveness where
  pinnedMethods : List MethodId := []
  pinnedFields : List FieldId := []
deriving DecidableEq, Inhabited

structure Program where
  types : List TypeEntry := []
  methods : List MethodDef := []
  fields : List FieldDef := []
  bodies : Table MethodId Body := .empty
  summaries : Table MethodId InitializerSummary := .empty
  /-- Without repetition, in the order of processing. -/
  processed : List MethodId := []
  /-- Present if the whole program is known. -/
  liveness : Option Liveness := none
deriving Inhabited

namespace Program

/-! ### Looking up -/

def typeCount (program : Program) : Nat :=
  program.types.length

def typeIds (program : Program) : List TypeId :=
  (List.range program.types.length).map TypeId.mk

def typeName (program : Program) (type : TypeId) : String :=
  (program.types[type.index]?.map (·.name)).getD "<unknown>"

def lookupType? (program : Program) (name : String) : Option TypeId :=
  (program.types.findIdx? (·.name = name)).map TypeId.mk

/-- The definition of a type; types outside the table or known by name only have none. -/
def class? (program : Program) (type : TypeId) : Option ClassDef :=
  program.types[type.index]?.bind (·.definition)

def classes (program : Program) : List ClassDef :=
  program.types.filterMap (·.definition)

def method? (program : Program) (method : MethodId) : Option MethodDef :=
  program.methods[method.index]?

def field? (program : Program) (field : FieldId) : Option FieldDef :=
  program.fields[field.index]?

/-- The definition of a method that has to be there. -/
def method (program : Program) (method : MethodId) : Except Error MethodDef :=
  match program.method? method with
  | some definition => .ok definition
  | none => .error (.unknownMethod method)

/-- The definition of a field that has to be there. -/
def field (program : Program) (field : FieldId) : Except Error FieldDef :=
  match program.field? field with
  | some definition => .ok definition
  | none => .error (.unknownField field)

/-- Holder, name and descriptor of a method, with the holder's name written out. -/
def methodLabel (program : Program) (definition : MethodDef) : String :=
  s!"{program.typeName definition.holder}.{definition.reference.name}{definition.reference.descriptor}"

def isProgramType (program : Program) (type : TypeId) : Bool :=
  (program.class? type).any (·.isProgramClass)

/-- The methods of the program's own classes, class by class. -/
def programMethods (program : Program) : List MethodId :=
  (program.classes.filter (·.isProgramClass)).flatMap (·.methods)

def isProgramMethod (program : Program) (definition : MethodDef) : Bool :=
  program.isProgramType definition.holder

/-- The definitions of a class's methods. -/
def methodsOf (program : Program) (definition : ClassDef) : List MethodDef :=
  definition.methods.filterMap program.method?

/-- The definitions of a class's fields. -/
def fieldsOf (program : Program) (definition : ClassDef) : List FieldDef :=
  definition.fields.filterMap program.field?

/-! ### Declaring -/

/-- The identifier of the type with this name, which is added if it is new. -/
def typeRef (program : Program) (name : String) : Program × TypeId :=
  match program.lookupType? name with
  | some type => (program, type)
  | none => ({ program with types := program.types ++ [{ name }] }, ⟨program.types.length⟩)

def modifyClass (program : Program) (type : TypeId) (f : ClassDef → ClassDef) : Program :=
  { program with
    types := program.types.modify type.index fun entry => { entry with definition := entry.definition.map f } }

/-- Gives a type a definition without members. -/
def declareClass (program : Program) (name : String) (kind : ClassKind) (flags : AccessFlags)
    (superclass : Option TypeId) (interfaces : List TypeId) : Program × TypeId :=
  let (program, id) := program.typeRef name
  let definition : ClassDef := { id, name, kind, flags, superclass, interfaces }
  ({ program with types := program.types.modify id.index ({ · with definition := some definition }) }, id)

def setQuietInitializer (program : Program) (type : TypeId) (quiet : Bool) : Program :=
  program.modifyClass type ({ · with quietInitializer := quiet })

def addMethod (program : Program) (holder : TypeId) (name descriptor : String) (flags : AccessFlags) :
    Program × MethodId :=
  let id : MethodId := ⟨program.methods.length⟩
  let definition : MethodDef := { id, reference := { holder, name, descriptor }, flags }
  let extended := { program with methods := program.methods ++ [definition] }
  (extended.modifyClass holder fun owner => { owner with methods := owner.methods ++ [id] }, id)

/-- The definition that adding a field puts at the end of the table. -/
def nextField (program : Program) (holder : TypeId) (name descriptor : String) (flags : AccessFlags) : FieldDef :=
  { id := ⟨program.fields.length⟩, reference := { holder, name, descriptor }, flags }

def addField (program : Program) (holder : TypeId) (name descriptor : String) (flags : AccessFlags) :
    Program × FieldId :=
  let definition := program.nextField holder name descriptor flags
  let extended := { program with fields := program.fields ++ [definition] }
  (extended.modifyClass holder fun owner => { owner with fields := owner.fields ++ [definition.id] }, definition.id)

/-- Adds a field to a class of the program, static whatever the flags say. -/
def addStaticField (program : Program) (holder : TypeId) (name descriptor : String) (flags : AccessFlags) :
    Except Error (Program × FieldId) :=
  if program.isProgramType holder then .ok (program.addField holder name descriptor flags.withStatic)
  else .error (.foreignHolder name (program.typeName holder))

def markFieldDead (program : Program) (field : FieldId) : Program :=
  { program with fields := program.fields.modify field.index ({ · with isDead := true }) }

/-! ### Requests for static fields -/

/-- What is asked for when a declared program needs one more static field. -/
structure FieldRequest where
  holder : TypeId
  name : String
  descriptor : String
  flags : AccessFlags

/-- Adds a field to the program at hand: to the table first, and then to what its holder lists. -/
def writeField (field : FieldDef) : StateM Program FieldId := do
  modify fun program => { program with fields := program.fields ++ [field] }
  modify fun program => program.modifyClass field.holder fun owner => { owner with fields := owner.fields ++ [field.id] }
  return field.id

/-- Serves a request on the program at hand. What has been written by then would stay if a step failed. -/
def FieldRequest.serve (request : FieldRequest) : ExceptT Error (StateM Program) FieldId := do
  let program ← get
  if program.isProgramType request.holder then
    writeField (program.nextField request.holder request.name request.descriptor request.flags.withStatic)
  else throw (.foreignHolder request.name (program.typeName request.holder))

/-- The program after all requests, whether they were granted or not. -/
def serveAll (program : Program) (requests : List FieldRequest) : Program :=
  requests.foldl (fun program request => (request.serve.run.run program).2) program

/-! ### Bodies, summaries and processing -/

def body? (program : Program) (method : MethodId) : Option Body :=
  program.bodies.find? method

def putBody (program : Program) (method : MethodId) (body : Body) : Program :=
  { program with bodies := program.bodies.insert method body }

def removeBody (program : Program) (method : MethodId) : Program :=
  { program with bodies := program.bodies.erase method }

def summary? (program : Program) (method : MethodId) : Option InitializerSummary :=
  program.summaries.find? method

def recordSummary (program : Program) (method : MethodId) (summary : InitializerSummary) : Program :=
  { program with summaries := program.summaries.insert method summary }

def isProcessed (program : Program) (method : MethodId) : Bool :=
  program.processed.contains method

def markProcessed (program : Program) (method : MethodId) : Program :=
  if program.isProcessed method then program
  else { program with processed := program.processed ++ [method] }

/-! ### Liveness -/

/-- From here on the whole program is known. -/
def closeWorld (program : Program) : Program :=
  { program with liveness := some (program.liveness.getD {}) }

def pinMethod (program : Program) (method : MethodId) : Program :=
  let liveness := program.liveness.getD {}
  { program with liveness := some { liveness with pinnedMethods := method :: liveness.pinnedMethods } }

def pinField (program : Program) (field : FieldId) : Program :=
  let liveness := program.liveness.getD {}
  { program with liveness := some { liveness with pinnedFields := field :: liveness.pinnedFields } }

def isPinnedMethod (program : Program) (method : MethodId) : Bool :=
  program.liveness.any (·.pinnedMethods.contains method)

def isPinnedField (program : Program) (field : FieldId) : Bool :=
  program.liveness.any (·.pinnedFields.contains field)

end Program

end Bytecode
