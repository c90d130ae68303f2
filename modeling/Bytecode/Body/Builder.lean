import Bytecode.Error
/-!
# Building a body

A builder holds a body in the making and the block that instructions go to. It starts with one empty block. Switching
to a block that does not exist is allowed; only an operation that touches the current block then fails. `finish` hands
out the body if it has no defect.
-/

namespace Bytecode

structure BodyBuilder where
  body : Body
  current : Nat
deriving DecidableEq, Inhabited

namespace BodyBuilder

def start (method : MethodId) : BodyBuilder :=
  ⟨{ method, blocks := [{}] }, 0⟩

/-- Appends an empty block and gives its position. -/
def newBlock (builder : BodyBuilder) : BodyBuilder × Nat :=
  ({ builder with body.blocks := builder.body.blocks ++ [{}] }, builder.body.blocks.length)

def switchTo (builder : BodyBuilder) (block : Nat) : BodyBuilder :=
  { builder with current := block }

/-- Creates a value without a definition. -/
def newValue (builder : BodyBuilder) : BodyBuilder × ValueId :=
  ({ builder with body.values := builder.body.values ++ [{}] }, ⟨builder.body.values.length⟩)

def modifyValue (builder : BodyBuilder) (value : ValueId) (f : ValueInfo → ValueInfo) : BodyBuilder :=
  { builder with body.values := builder.body.values.modify value.index f }

/-- Binds an existing value to a source-level local. -/
def setLocal (builder : BodyBuilder) (value : ValueId) (name : String) : BodyBuilder :=
  builder.modifyValue value ({ · with localName := some name })

def modifyCurrent (builder : BodyBuilder) (f : Block → Block) : Except Error BodyBuilder :=
  if builder.current < builder.body.blocks.length then
    .ok { builder with body := builder.body.modifyBlock builder.current f }
  else .error (.missingBlock builder.current)

/-- Appends an operation as it is: no value is created and the successors stay. -/
def emit (builder : BodyBuilder) (operation : Operation) : Except Error BodyBuilder :=
  builder.modifyCurrent fun block => { block with instructions := block.instructions ++ [{ operation }] }

/-- Creates a value and appends the operation that defines it. -/
def define (builder : BodyBuilder) (operation : ValueId → Operation) : Except Error (BodyBuilder × ValueId) := do
  let (extended, dest) := builder.newValue
  return (← extended.emit (operation dest), dest)

/-- Defines another name for `source`. -/
def assume (builder : BodyBuilder) (source : ValueId) : Except Error (BodyBuilder × ValueId) := do
  let (extended, dest) ← builder.define (.assume · source)
  return (extended.modifyValue dest ({ · with aliasOf := some source }), dest)

/-- Appends an operation and sets the successors of the block. -/
def terminate (builder : BodyBuilder) (operation : Operation) (successors : List Nat) :
    Except Error BodyBuilder := do
  (← builder.emit operation).modifyCurrent ({ · with successors })

def phi (builder : BodyBuilder) (operands : List ValueId) : Except Error (BodyBuilder × ValueId) := do
  let (extended, dest) := builder.newValue
  let placed ← extended.modifyCurrent fun block => { block with phis := block.phis ++ [{ dest, operands }] }
  return (placed, dest)

def addHandler (builder : BodyBuilder) (guard : Option TypeId) (target : Nat) : Except Error BodyBuilder :=
  builder.modifyCurrent fun block => { block with handlers := block.handlers ++ [{ guard, target }] }

/-- Adds debug values to the last instruction of the current block, if it has one. -/
def attachDebugValues (builder : BodyBuilder) (values : List ValueId) : Except Error BodyBuilder :=
  builder.modifyCurrent fun block =>
    { block with
      instructions := block.instructions.modify (block.instructions.length - 1) fun instruction =>
        { instruction with debugValues := instruction.debugValues ++ values } }

def finish (builder : BodyBuilder) : Except Error Body := do
  builder.body.check
  return builder.body

/-! ### Building steps as data -/

/-- One step of building. Steps that create a value or a block report it. -/
inductive Step where
  | newBlock
  | switchTo (block : Nat)
  | currentBlock
  | newValue
  | setLocal (value : ValueId) (name : String)
  | attachDebugValues (values : List ValueId)
  | addHandler (guard : Option TypeId) (target : Nat)
  | phi (operands : List ValueId)
  | assume (source : ValueId)
  | define (operation : ValueId → Operation)
  | emit (operation : Operation)
  | terminate (operation : Operation) (successors : List Nat)

/-- What a step reports. -/
inductive Created where
  | value (id : ValueId)
  | block (position : Nat)
deriving DecidableEq, Inhabited

def apply (builder : BodyBuilder) : Step → Except Error (BodyBuilder × Option Created)
  | .newBlock =>
    let (builder, block) := builder.newBlock
    .ok (builder, some (.block block))
  | .switchTo block => .ok (builder.switchTo block, none)
  | .currentBlock => .ok (builder, some (.block builder.current))
  | .newValue =>
    let (builder, value) := builder.newValue
    .ok (builder, some (.value value))
  | .setLocal value name => .ok (builder.setLocal value name, none)
  | .attachDebugValues values => (builder.attachDebugValues values).map (·, none)
  | .addHandler guard target => (builder.addHandler guard target).map (·, none)
  | .phi operands => (builder.phi operands).map fun (builder, value) => (builder, some (.value value))
  | .assume source => (builder.assume source).map fun (builder, value) => (builder, some (.value value))
  | .define operation => (builder.define operation).map fun (builder, value) => (builder, some (.value value))
  | .emit operation => (builder.emit operation).map (·, none)
  | .terminate operation successors => (builder.terminate operation successors).map (·, none)

/-- Takes the steps in order and lists what they report. -/
def run (builder : BodyBuilder) : List Step → Except Error (BodyBuilder × List Created)
  | [] => .ok (builder, [])
  | step :: rest => do
    let (next, created) ← builder.apply step
    let (last, others) ← next.run rest
    return (last, created.toList ++ others)

end BodyBuilder

end Bytecode
