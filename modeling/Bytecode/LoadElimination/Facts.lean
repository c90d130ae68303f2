import Bytecode.KnownFields
import Bytecode.Pass
import Bytecode.Program.Initialization
import Bytecode.Program.Resolution
/-!
# What is known at a point of a body

The facts at a point are the known field values and the classes known to be initialized. An instruction that stays in
its body changes them as described here. A read or a write of a field that is not tracked, a call without a usable
summary, an entered monitor and the initialization of a class with effects may run any code and spoil every fact that
is not final. A static access to a class that may not be initialized yet spoils the facts on static fields.

Only fields that a reference binds to under the settings, that are static exactly if the instruction is, and that
nothing else can change, are tracked.
-/

namespace Bytecode.LoadElimination

structure Facts where
  fields : KnownFields := {}
  initialized : List TypeId := []
deriving DecidableEq, Inhabited

/-- Where a body stands: its program and settings, its method and the class of that method. -/
structure Scope where
  program : Program
  settings : Settings
  method : MethodId
  holder : TypeId

namespace Facts

def clearNonFinal (facts : Facts) : Facts :=
  { facts with fields := facts.fields.clearNonFinal }

def markInitialized (facts : Facts) (type : TypeId) : Facts :=
  if type ∈ facts.initialized then facts else { facts with initialized := type :: facts.initialized }

def unmarkInitialized (facts : Facts) (type : TypeId) : Facts :=
  { facts with initialized := facts.initialized.filter (· ≠ type) }

end Facts

namespace Scope

/-- The field that an instruction accesses, if its value can be tracked. -/
def trackedField? (scope : Scope) (reference : FieldRef) (isStatic : Bool) : Option FieldDef :=
  let bound :=
    if scope.settings.wholeProgram then scope.program.resolveField? reference
    else if reference.holder = scope.holder then scope.program.ownField? reference
    else none
  bound.filter fun definition => definition.isStatic == isStatic && scope.program.mayPropagate definition

/-- Touching a static member of the class runs no initializer. -/
def isInitialized (scope : Scope) (facts : Facts) (type : TypeId) : Bool :=
  type = scope.holder || type ∈ facts.initialized

/-- Initializes a class if need be: facts on static fields do not survive its initializer. -/
def touch (scope : Scope) (facts : Facts) (type : TypeId) : Facts :=
  let survived :=
    if scope.isInitialized facts type then facts
    else { facts with fields := facts.fields.clearNonFinalStatics }
  survived.markInitialized type

/-! ### Field accesses -/

/-- A read that stays makes its result known, unless the result is bound to a local. -/
def afterInstanceGet (scope : Scope) (body : Body) (facts : Facts) (dest object : ValueId) (reference : FieldRef) :
    Facts :=
  match scope.trackedField? reference false with
  | none => facts.clearNonFinal
  | some definition =>
    if body.hasLocalInfo dest then facts
    else
      { facts with
        fields := facts.fields.recordInstance false definition.id (body.aliasRoot object) (.existing dest) }

/-- A write makes the written value known and spoils the field on other receivers, which may be the same object. -/
def afterInstancePut (scope : Scope) (body : Body) (facts : Facts) (object : ValueId) (reference : FieldRef)
    (value : ValueId) : Facts :=
  match scope.trackedField? reference false with
  | none => facts.clearNonFinal
  | some definition =>
    { facts with
      fields := (facts.fields.forgetNonFinalInstances definition.id).recordInstance definition.isFinal definition.id
        (body.aliasRoot object) (.existing value) }

def afterStaticGet (scope : Scope) (body : Body) (facts : Facts) (dest : ValueId) (reference : FieldRef) : Facts :=
  match scope.trackedField? reference true with
  | none => facts.clearNonFinal
  | some definition =>
    let touched := scope.touch facts definition.holder
    if body.hasLocalInfo dest then touched
    else { touched with fields := touched.fields.recordStatic false definition.id (.existing dest) }

def afterStaticPut (scope : Scope) (facts : Facts) (reference : FieldRef) (value : ValueId) : Facts :=
  match scope.trackedField? reference true with
  | none => facts.clearNonFinal
  | some definition =>
    let touched := scope.touch facts definition.holder
    { touched with fields := touched.fields.recordStatic definition.isFinal definition.id (.existing value) }

/-! ### Allocation and calls -/

def afterNewInstance (scope : Scope) (facts : Facts) (type : TypeId) : Facts :=
  let survived :=
    if type ∉ facts.initialized && scope.program.initializationHasEffects type scope.holder then facts.clearNonFinal
    else facts
  survived.markInitialized type

/-- The summary of the instance initializer that a call runs. -/
def initializerSummary? (scope : Scope) (kind : InvokeKind) (reference : MethodRef) : Option InitializerSummary :=
  if kind = .direct && scope.settings.wholeProgram then do
    let target ← scope.program.resolveMethod? .direct reference
    if target.isInstanceInitializer then scope.program.summary? target.id else none
  else none

/-- What a field holds after an initializer has set it, if that can be said in the caller. -/
def initialValue? (scope : Scope) (arguments : List ValueId) : FieldInitialization → Option Known
  | .argument index => arguments[index]?.map .existing
  | .constant value =>
    if scope.program.isMaterializable value scope.holder then some (.constant value) else none

/-- One field set by an initializer on its receiver. -/
def afterFieldInitialization (scope : Scope) (receiver : ValueId) (arguments : List ValueId) (fields : KnownFields)
    (initialization : FieldId × FieldInitialization) : Except Error KnownFields := do
  let (field, source) := initialization
  let spoiled := (fields.forgetNonFinalInstances field).forgetInstance field receiver
  let definition ← scope.program.field field
  if scope.program.mayPropagate definition then
    match scope.initialValue? arguments source with
    | some known => return spoiled.recordInstance definition.isFinal field receiver known
    | none => return spoiled
  else return spoiled

def afterInvoke (scope : Scope) (body : Body) (facts : Facts) (kind : InvokeKind) (reference : MethodRef)
    (arguments : List ValueId) : Except Error Facts :=
  match scope.initializerSummary? kind reference, arguments with
  | some summary, receiver :: _ => do
    let start := if summary.hasOtherEffects then facts.clearNonFinal else facts
    let fields ← summary.fields.foldlM
      (scope.afterFieldInitialization (body.aliasRoot receiver) arguments) start.fields
    return { start with fields }
  | _, _ => .ok facts.clearNonFinal

/-! ### One instruction -/

/-- The facts after an instruction that stays in its body. -/
def after (scope : Scope) (body : Body) (facts : Facts) : Operation → Except Error Facts
  | .instanceGet dest object field => .ok (scope.afterInstanceGet body facts dest object field)
  | .instancePut object field value => .ok (scope.afterInstancePut body facts object field value)
  | .staticGet dest field => .ok (scope.afterStaticGet body facts dest field)
  | .staticPut field value => .ok (scope.afterStaticPut facts field value)
  | .initClass _ type => .ok (scope.touch facts type)
  | .newInstance _ type => .ok (scope.afterNewInstance facts type)
  | .invoke _ kind method arguments => scope.afterInvoke body facts kind method arguments
  | .invokeCustom .. | .monitorEnter _ => .ok facts.clearNonFinal
  | .argument .. | .arrayGet .. | .arrayLength .. | .arrayPut .. | .assume .. | .binary .. | .checkCast ..
  | .constClass .. | .constNull _ | .constNumber .. | .constString .. | .debugLocalRead | .goto | .branch ..
  | .instanceOf .. | .monitorExit _ | .moveException _ | .newArray .. | .newArrayFilled .. | .return _ | .switch ..
  | .throw _ | .unary .. => .ok facts

/-- The facts without what an instruction would have established had it not thrown. -/
def withoutEffectOf (scope : Scope) (body : Body) (facts : Facts) : Operation → Facts
  | .instanceGet _ object field | .instancePut object field _ =>
    match scope.trackedField? field false with
    | none => facts
    | some definition =>
      { facts with fields := facts.fields.forgetInstance definition.id (body.aliasRoot object) }
  | .staticGet _ field | .staticPut field _ =>
    match scope.trackedField? field true with
    | none => facts
    | some definition =>
      { facts with fields := facts.fields.forgetStatic definition.id }.unmarkInitialized definition.holder
  | .initClass _ type | .newInstance _ type => facts.unmarkInitialized type
  | _ => facts

end Scope

end Bytecode.LoadElimination
