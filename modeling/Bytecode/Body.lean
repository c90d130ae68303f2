import Bytecode.Block
import Bytecode.Graph.Traversal
/-!
# Method bodies

A body is a list of blocks in single-assignment form, the first of them the entry, with a table of the values it ever
created. A block is named by its position and a value by its position in the table. A value may carry the name of a
source-level local, and it may be an alias of another value.

Predecessors are not stored. They are read off the successors, so no change of instructions can put them out of
step.
-/

namespace Bytecode

/-- What is recorded about a value apart from its definition. -/
structure ValueInfo where
  localName : Option String := none
  aliasOf : Option ValueId := none
deriving DecidableEq, Inhabited

structure Body where
  method : MethodId
  blocks : List Block := []
  values : List ValueInfo := []
deriving DecidableEq, Inhabited

namespace Body

def block? (body : Body) (position : Nat) : Option Block :=
  body.blocks[position]?

def value? (body : Body) (value : ValueId) : Option ValueInfo :=
  body.values[value.index]?

def hasLocalInfo (body : Body) (value : ValueId) : Bool :=
  (body.value? value).any (·.localName.isSome)

def instructions (body : Body) : List Instruction :=
  body.blocks.flatMap (·.instructions)

def instruction? (body : Body) (block position : Nat) : Option Instruction := do
  (← body.block? block).instructions[position]?

/-- The values defined by phis and instructions, block by block. -/
def definitions (body : Body) : List ValueId :=
  body.blocks.flatMap (·.definitions)

def uses (body : Body) : List ValueId :=
  body.blocks.flatMap (·.uses)

/-- Every invocation with its kind, in order. -/
def invocations (body : Body) : List (InvokeKind × MethodRef) :=
  body.instructions.filterMap fun instruction =>
    match instruction.operation with
    | .invoke _ kind method _ => some (kind, method)
    | _ => none

/-- The classes whose initialization the body checks, in order. -/
def initChecks (body : Body) : List TypeId :=
  body.instructions.filterMap fun instruction =>
    match instruction.operation with
    | .initClass _ type => some type
    | _ => none

/-- Some instruction reads a field or checks the initialization of a class. -/
def hasFieldReadOrInitCheck (body : Body) : Bool :=
  body.instructions.any (·.operation.isFieldReadOrInitCheck)

/-! ### Control flow -/

/-- The blocks that lead to `target`, in ascending order. -/
def predecessors (body : Body) (target : Nat) : List Nat :=
  if target < body.blocks.length then
    (List.range body.blocks.length).filter fun source =>
      (body.block? source).any (·.allSuccessors.contains target)
  else []

def flowGraph (body : Body) : Digraph where
  size := body.blocks.length
  successors block := ((body.block? block).map (·.allSuccessors)).getD []
  predecessors := body.predecessors

/-! ### Aliases -/

/-- Follows at most `steps` alias links. -/
def followAliases (body : Body) : (steps : Nat) → ValueId → ValueId
  | 0, value => value
  | steps + 1, value =>
    match (body.value? value).bind (·.aliasOf) with
    | some source => body.followAliases steps source
    | none => value

/-- The end of a value's alias chain. A chain without a cycle has fewer links than there are values, so the limit
matters only for cycles. -/
def aliasRoot (body : Body) (value : ValueId) : ValueId :=
  body.followAliases (body.values.length + 1) value

/-! ### Changing a body -/

def mapUses (f : ValueId → ValueId) (body : Body) : Body :=
  { body with blocks := body.blocks.map (·.mapUses f) }

/-- Uses `new` wherever `old` was used. -/
def replaceUses (body : Body) (old new : ValueId) : Body :=
  body.mapUses fun value => if value = old then new else value

/-- How often a value is used. -/
def useCount (body : Body) (value : ValueId) : Nat :=
  body.uses.count value

def visitUses {m : Type → Type} [Monad m] (visit : ValueId → m ValueId) (body : Body) : m Body :=
  return { body with blocks := ← body.blocks.mapM (·.visitUses visit) }

/-- Uses `new` wherever `old` was used, in one visit of all uses that counts how many it changes. -/
def rewriteUses (body : Body) (old new : ValueId) : Body × Nat :=
  (body.visitUses (m := StateM Nat) fun used =>
    if used = old then modifyGet fun count => (new, count + 1) else return used).run 0

/-- The values whose phi or instruction has `value` as an operand, as often as found. Debug values do not count. -/
def affectedBy (body : Body) (value : ValueId) : List ValueId :=
  body.blocks.flatMap fun block =>
    (block.phis.filter (·.operands.contains value)).map (·.dest) ++
      (block.instructions.filter (·.operation.operands.contains value)).filterMap (·.operation.dest?)

def modifyBlock (body : Body) (block : Nat) (f : Block → Block) : Body :=
  { body with blocks := body.blocks.modify block f }

/-- Gives an instruction another operation; its debug values stay. -/
def replaceOperation (body : Body) (block position : Nat) (operation : Operation) : Body :=
  body.modifyBlock block fun target =>
    { target with instructions := target.instructions.modify position ({ · with operation := operation }) }

def removeInstruction (body : Body) (block position : Nat) : Body :=
  body.modifyBlock block fun target =>
    { target with instructions := target.instructions.eraseIdx position }

/-- Removes an instruction, unless it has debug values: those stay readable in its place. -/
def discardInstruction (body : Body) (block position : Nat) : Body :=
  if (body.instruction? block position).any (!·.debugValues.isEmpty) then
    body.replaceOperation block position .debugLocalRead
  else body.removeInstruction block position

end Body

end Bytecode
