import Bytecode.Identifier
import Bytecode.Text.Escape
/-!
# Operations

An operation is one step of a method body. It defines at most one value and uses the values that are its operands, in
a fixed order. Some operations can throw, and some end a block and need a number of successors that the operation
alone determines.

A constant is a value that an operation without operands can create anew.
-/

namespace Bytecode

/-- A number, the null reference, a string, or what a static field holds. -/
inductive Constant where
  | number (value : Int)
  | null
  | string (text : String)
  | staticField (field : FieldRef)
deriving DecidableEq, Inhabited

def Constant.text : Constant → String
  | .number value => toString value
  | .null => "null"
  | .string text => Text.quote text
  | .staticField field => field.text

/-- How an invocation selects its method. -/
inductive InvokeKind where
  | direct
  | static
  | virtual
  | interface
  | super
  | polymorphic
deriving DecidableEq, Inhabited

/-- The receiver's class takes part in the selection. -/
def InvokeKind.isDynamicDispatch : InvokeKind → Bool
  | .virtual | .interface => true
  | .direct | .static | .super | .polymorphic => false

inductive BinaryKind where
  | add
  | sub
  | mul
  | div
  | rem
  | and
  | or
  | xor
  | shl
  | shr
  | cmp
deriving DecidableEq, Inhabited

/-- Division and remainder throw on a zero divisor. -/
def BinaryKind.canThrow : BinaryKind → Bool
  | .div | .rem => true
  | .add | .sub | .mul | .and | .or | .xor | .shl | .shr | .cmp => false

inductive UnaryKind where
  | neg
  | not
  | convert
deriving DecidableEq, Inhabited

inductive Comparison where
  | eq
  | ne
  | lt
  | ge
  | gt
  | le
deriving DecidableEq, Inhabited

inductive Operation where
  | argument (dest : ValueId) (index : Nat)
  | arrayGet (dest array index : ValueId)
  | arrayLength (dest array : ValueId)
  | arrayPut (array index value : ValueId)
  /-- Another name for `source` under an assumption on it. -/
  | assume (dest source : ValueId)
  | binary (dest : ValueId) (kind : BinaryKind) (left right : ValueId)
  | checkCast (dest source : ValueId) (type : TypeId)
  | constClass (dest : ValueId) (type : TypeId)
  | constNull (dest : ValueId)
  | constNumber (dest : ValueId) (value : Int)
  | constString (dest : ValueId) (value : String)
  /-- Keeps the debug values of its instruction readable. -/
  | debugLocalRead
  | goto
  /-- Compares with zero or null if there is no right side. -/
  | branch (kind : Comparison) (left : ValueId) (right : Option ValueId)
  | initClass (dest : ValueId) (type : TypeId)
  | instanceGet (dest object : ValueId) (field : FieldRef)
  | instanceOf (dest source : ValueId) (type : TypeId)
  | instancePut (object : ValueId) (field : FieldRef) (value : ValueId)
  | invoke (dest : Option ValueId) (kind : InvokeKind) (method : MethodRef) (arguments : List ValueId)
  | invokeCustom (dest : Option ValueId) (callSite : String) (arguments : List ValueId)
  | monitorEnter (object : ValueId)
  | monitorExit (object : ValueId)
  | moveException (dest : ValueId)
  | newArray (dest size : ValueId) (type : TypeId)
  | newArrayFilled (dest : ValueId) (type : TypeId) (elements : List ValueId)
  | newInstance (dest : ValueId) (type : TypeId)
  | return (value : Option ValueId)
  | staticGet (dest : ValueId) (field : FieldRef)
  | staticPut (field : FieldRef) (value : ValueId)
  /-- One successor per key, and one for any other value. -/
  | switch (value : ValueId) (keys : List Int)
  | throw (exception : ValueId)
  | unary (dest : ValueId) (kind : UnaryKind) (source : ValueId)
deriving DecidableEq, Inhabited

namespace Operation

def mnemonic : Operation → String
  | .argument .. => "Argument"
  | .arrayGet .. => "ArrayGet"
  | .arrayLength .. => "ArrayLength"
  | .arrayPut .. => "ArrayPut"
  | .assume .. => "Assume"
  | .binary .. => "Binop"
  | .checkCast .. => "CheckCast"
  | .constClass .. => "ConstClass"
  | .constNull .. => "ConstNull"
  | .constNumber .. => "ConstNumber"
  | .constString .. => "ConstString"
  | .debugLocalRead => "DebugLocalRead"
  | .goto => "Goto"
  | .branch .. => "If"
  | .initClass .. => "InitClass"
  | .instanceGet .. => "InstanceGet"
  | .instanceOf .. => "InstanceOf"
  | .instancePut .. => "InstancePut"
  | .invoke .. => "Invoke"
  | .invokeCustom .. => "InvokeCustom"
  | .monitorEnter .. => "MonitorEnter"
  | .monitorExit .. => "MonitorExit"
  | .moveException .. => "MoveException"
  | .newArray .. => "NewArray"
  | .newArrayFilled .. => "NewArrayFilled"
  | .newInstance .. => "NewInstance"
  | .return .. => "Return"
  | .staticGet .. => "StaticGet"
  | .staticPut .. => "StaticPut"
  | .switch .. => "Switch"
  | .throw .. => "Throw"
  | .unary .. => "Unop"

/-- The value that the operation defines. -/
def dest? : Operation → Option ValueId
  | .argument dest _ | .arrayGet dest _ _ | .arrayLength dest _ | .assume dest _ | .binary dest _ _ _
  | .checkCast dest _ _ | .constClass dest _ | .constNull dest | .constNumber dest _ | .constString dest _
  | .initClass dest _ | .instanceGet dest _ _ | .instanceOf dest _ _ | .moveException dest
  | .newArray dest _ _ | .newArrayFilled dest _ _ | .newInstance dest _ | .staticGet dest _
  | .unary dest _ _ => some dest
  | .invoke dest _ _ _ | .invokeCustom dest _ _ => dest
  | .arrayPut .. | .debugLocalRead | .goto | .branch .. | .instancePut .. | .monitorEnter _ | .monitorExit _
  | .return _ | .staticPut .. | .switch .. | .throw _ => none

/-- The values that the operation uses, in their order. -/
def operands : Operation → List ValueId
  | .arrayGet _ array index => [array, index]
  | .arrayLength _ array => [array]
  | .arrayPut array index value => [array, index, value]
  | .assume _ source | .checkCast _ source _ | .instanceOf _ source _ | .unary _ _ source => [source]
  | .binary _ _ left right => [left, right]
  | .branch _ left right => left :: right.toList
  | .instanceGet _ object _ => [object]
  | .instancePut object _ value => [object, value]
  | .invoke _ _ _ arguments | .invokeCustom _ _ arguments => arguments
  | .monitorEnter object | .monitorExit object => [object]
  | .newArray _ size _ => [size]
  | .newArrayFilled _ _ elements => elements
  | .return value => value.toList
  | .staticPut _ value | .switch value _ => [value]
  | .throw exception => [exception]
  | .argument .. | .constClass .. | .constNull _ | .constNumber .. | .constString .. | .debugLocalRead | .goto
  | .initClass .. | .moveException _ | .newInstance .. | .staticGet .. => []

/-- Hands every operand to `visit`, in their order, and puts what that gives in its place; the defined value stays. -/
def visitOperands {m : Type → Type} [Monad m] (visit : ValueId → m ValueId) : Operation → m Operation
  | .arrayGet dest array index => return .arrayGet dest (← visit array) (← visit index)
  | .arrayLength dest array => return .arrayLength dest (← visit array)
  | .arrayPut array index value => return .arrayPut (← visit array) (← visit index) (← visit value)
  | .assume dest source => return .assume dest (← visit source)
  | .binary dest kind left right => return .binary dest kind (← visit left) (← visit right)
  | .checkCast dest source type => return .checkCast dest (← visit source) type
  | .branch kind left right => return .branch kind (← visit left) (← right.mapM visit)
  | .instanceGet dest object field => return .instanceGet dest (← visit object) field
  | .instanceOf dest source type => return .instanceOf dest (← visit source) type
  | .instancePut object field value => return .instancePut (← visit object) field (← visit value)
  | .invoke dest kind method arguments => return .invoke dest kind method (← arguments.mapM visit)
  | .invokeCustom dest callSite arguments => return .invokeCustom dest callSite (← arguments.mapM visit)
  | .monitorEnter object => return .monitorEnter (← visit object)
  | .monitorExit object => return .monitorExit (← visit object)
  | .newArray dest size type => return .newArray dest (← visit size) type
  | .newArrayFilled dest type elements => return .newArrayFilled dest type (← elements.mapM visit)
  | .return value => return .return (← value.mapM visit)
  | .staticPut field value => return .staticPut field (← visit value)
  | .switch value keys => return .switch (← visit value) keys
  | .throw exception => return .throw (← visit exception)
  | .unary dest kind source => return .unary dest kind (← visit source)
  | .argument dest index => return .argument dest index
  | .constClass dest type => return .constClass dest type
  | .constNull dest => return .constNull dest
  | .constNumber dest value => return .constNumber dest value
  | .constString dest value => return .constString dest value
  | .debugLocalRead => return .debugLocalRead
  | .goto => return .goto
  | .initClass dest type => return .initClass dest type
  | .moveException dest => return .moveException dest
  | .newInstance dest type => return .newInstance dest type
  | .staticGet dest field => return .staticGet dest field

/-- Applies a function to every operand; the defined value stays. -/
def mapOperands (f : ValueId → ValueId) (operation : Operation) : Operation :=
  Id.run (operation.visitOperands fun value => pure (f value))

def canThrow : Operation → Bool
  | .arrayGet .. | .arrayLength .. | .arrayPut .. | .checkCast .. | .constClass .. | .initClass ..
  | .instanceGet .. | .instancePut .. | .invoke .. | .invokeCustom .. | .monitorEnter _ | .monitorExit _
  | .newArray .. | .newArrayFilled .. | .newInstance .. | .staticGet .. | .staticPut .. | .throw _ => true
  | .binary _ kind _ _ => kind.canThrow
  | .argument .. | .assume .. | .constNull _ | .constNumber .. | .constString .. | .debugLocalRead | .goto
  | .branch .. | .instanceOf .. | .moveException _ | .return _ | .switch .. | .unary .. => false

/-- How many successors a block needs that ends in the operation; none if no block ends in it. -/
def successorCount? : Operation → Option Nat
  | .goto => some 1
  | .branch .. => some 2
  | .switch _ keys => some (keys.length + 1)
  | .return _ | .throw _ => some 0
  | .argument .. | .arrayGet .. | .arrayLength .. | .arrayPut .. | .assume .. | .binary .. | .checkCast ..
  | .constClass .. | .constNull _ | .constNumber .. | .constString .. | .debugLocalRead | .initClass ..
  | .instanceGet .. | .instanceOf .. | .instancePut .. | .invoke .. | .invokeCustom .. | .monitorEnter _
  | .monitorExit _ | .moveException _ | .newArray .. | .newArrayFilled .. | .newInstance .. | .staticGet ..
  | .staticPut .. | .unary .. => none

def isTerminator (operation : Operation) : Bool :=
  operation.successorCount?.isSome

/-- Reads a field or checks that a class is initialized. -/
def isFieldReadOrInitCheck : Operation → Bool
  | .instanceGet .. | .staticGet .. | .initClass .. => true
  | _ => false

/-- What stands between the mnemonic and the operands. -/
def detail : Operation → List String
  | .instanceGet _ _ field | .instancePut _ field _ | .staticGet _ field | .staticPut field _ => [field.text]
  | .invoke _ _ method _ => [method.text]
  | .initClass _ type | .newInstance _ type => [type.text]
  | .constNumber _ value => [toString value]
  | _ => []

/-- The defined value, the mnemonic, its detail and the operands. -/
def text (operation : Operation) : String :=
  let definition := match operation.dest? with
    | some dest => dest.text ++ " = "
    | none => ""
  definition ++ " ".intercalate (operation.mnemonic :: operation.detail ++ operation.operands.map (·.text))

/-! ### Mapping operands -/

/-- A visit without effects is a map. -/
theorem visitOperands_pure {m : Type → Type} [Monad m] [LawfulMonad m] (f : ValueId → ValueId) (operation : Operation) :
    operation.visitOperands (fun value => (pure (f value) : m ValueId)) = pure (operation.mapOperands f) := by
  cases operation with
  | branch kind left right => cases right <;> simp [visitOperands, mapOperands]
  | «return» value => cases value <;> simp [visitOperands, mapOperands]
  | _ => simp [visitOperands, mapOperands]

section Fields

variable (f : ValueId → ValueId) (dest object value : ValueId) (field : FieldRef)

theorem mapOperands_instanceGet : (instanceGet dest object field).mapOperands f = .instanceGet dest (f object) field := rfl

theorem mapOperands_instancePut :
    (instancePut object field value).mapOperands f = .instancePut (f object) field (f value) := rfl

theorem mapOperands_staticGet : (staticGet dest field).mapOperands f = .staticGet dest field := rfl

theorem mapOperands_staticPut : (staticPut field value).mapOperands f = .staticPut field (f value) := rfl

end Fields

theorem mapOperands_invoke (f : ValueId → ValueId) (dest : Option ValueId) (kind : InvokeKind) (method : MethodRef)
    (arguments : List ValueId) :
    (invoke dest kind method arguments).mapOperands f = .invoke dest kind method (arguments.map f) := by
  simp [mapOperands, visitOperands]

theorem dest?_mapOperands (f : ValueId → ValueId) (operation : Operation) :
    (operation.mapOperands f).dest? = operation.dest? := by
  cases operation <;> rfl

theorem successorCount?_mapOperands (f : ValueId → ValueId) (operation : Operation) :
    (operation.mapOperands f).successorCount? = operation.successorCount? := by
  cases operation <;> rfl

theorem canThrow_mapOperands (operation : Operation) (f : ValueId → ValueId) :
    (operation.mapOperands f).canThrow = operation.canThrow := by
  cases operation <;> rfl

theorem operands_mapOperands (f : ValueId → ValueId) (operation : Operation) :
    (operation.mapOperands f).operands = operation.operands.map f := by
  cases operation with
  | branch kind left right => cases right <;> rfl
  | «return» value => cases value <;> rfl
  | invoke | invokeCustom | newArrayFilled => simp [mapOperands, visitOperands, operands]
  | _ => rfl

theorem mapOperands_mapOperands (f g : ValueId → ValueId) (operation : Operation) :
    (operation.mapOperands f).mapOperands g = operation.mapOperands fun value => g (f value) := by
  cases operation with
  | branch kind left right => cases right <;> rfl
  | «return» value => cases value <;> rfl
  | invoke | invokeCustom | newArrayFilled => simp [mapOperands, visitOperands]
  | _ => rfl

theorem mapOperands_eq_self {f : ValueId → ValueId} {operation : Operation}
    (h : ∀ value ∈ operation.operands, f value = value) : operation.mapOperands f = operation := by
  have hlist : ∀ values : List ValueId, (∀ value ∈ values, f value = value) → values.map f = values :=
    fun values hvalues => (List.map_congr_left hvalues).trans (List.map_id' values)
  cases operation with
  | branch kind left right => cases right <;> simp_all [operands, mapOperands, visitOperands]
  | «return» value => cases value <;> simp_all [operands, mapOperands, visitOperands]
  | _ => simp_all [operands, mapOperands, visitOperands]

end Operation

/-- The operation that creates the constant as the value `dest`. -/
def Constant.materialize (constant : Constant) (dest : ValueId) : Operation :=
  match constant with
  | .number value => .constNumber dest value
  | .null => .constNull dest
  | .string text => .constString dest text
  | .staticField field => .staticGet dest field

end Bytecode
