import Bytecode.Operation
/-!
# Blocks

A block is a straight run of instructions with phis in front of it. It goes on to its successors or, if one of its
instructions throws, to the target of a handler. The last instruction that can throw is where an exception leaves the
block at the latest.
-/

namespace Bytecode

/-- An operation and the values a debugger keeps alive there, which count as used. -/
structure Instruction where
  operation : Operation
  debugValues : List ValueId := []
deriving DecidableEq, Inhabited

namespace Instruction

/-- The operands and then the debug values. -/
def uses (instruction : Instruction) : List ValueId :=
  instruction.operation.operands ++ instruction.debugValues

def mapUses (f : ValueId → ValueId) (instruction : Instruction) : Instruction :=
  ⟨instruction.operation.mapOperands f, instruction.debugValues.map f⟩

/-- Visits the operands and then the debug values. -/
def visitUses {m : Type → Type} [Monad m] (visit : ValueId → m ValueId) (instruction : Instruction) : m Instruction :=
  return ⟨← instruction.operation.visitOperands visit, ← instruction.debugValues.mapM visit⟩

end Instruction

/-- Selects one operand per predecessor of its block. -/
structure Phi where
  dest : ValueId
  operands : List ValueId
deriving DecidableEq, Inhabited

def Phi.mapOperands (f : ValueId → ValueId) (phi : Phi) : Phi :=
  { phi with operands := phi.operands.map f }

def Phi.visitOperands {m : Type → Type} [Monad m] (visit : ValueId → m ValueId) (phi : Phi) : m Phi :=
  return { phi with operands := ← phi.operands.mapM visit }

/-- Catches exceptions of the type `guard`, or all of them. -/
structure Handler where
  guard : Option TypeId
  target : Nat
deriving DecidableEq, Inhabited

structure Block where
  phis : List Phi := []
  instructions : List Instruction := []
  successors : List Nat := []
  handlers : List Handler := []
deriving DecidableEq, Inhabited

namespace Block

/-- The successors and then the handler targets, repetitions kept. -/
def allSuccessors (block : Block) : List Nat :=
  block.successors ++ block.handlers.map (·.target)

def hasCatchSuccessor (block : Block) (target : Nat) : Bool :=
  block.handlers.any (·.target = target)

/-- Positions of the instructions that can throw. -/
def throwers (block : Block) : List Nat :=
  (List.range block.instructions.length).filter fun position =>
    block.instructions[position]?.any (·.operation.canThrow)

/-- The last instruction that can throw, in a block with handlers. -/
def exceptionalExit? (block : Block) : Option Nat :=
  if block.handlers.isEmpty then none else block.throwers.getLast?

def terminator? (block : Block) : Option Instruction :=
  block.instructions.getLast?.filter (·.operation.isTerminator)

/-- The values that the block defines: its phis and then its instructions. -/
def definitions (block : Block) : List ValueId :=
  block.phis.map (·.dest) ++ block.instructions.filterMap (·.operation.dest?)

/-- The values that the block uses: operands of its phis, then the uses of its instructions. -/
def uses (block : Block) : List ValueId :=
  block.phis.flatMap (·.operands) ++ block.instructions.flatMap (·.uses)

def mapUses (f : ValueId → ValueId) (block : Block) : Block :=
  { block with
    phis := block.phis.map (·.mapOperands f)
    instructions := block.instructions.map (·.mapUses f) }

/-- Visits the operands of the phis and then the uses of the instructions. -/
def visitUses {m : Type → Type} [Monad m] (visit : ValueId → m ValueId) (block : Block) : m Block :=
  return { block with
    phis := ← block.phis.mapM (·.visitOperands visit)
    instructions := ← block.instructions.mapM (·.visitUses visit) }

end Block

end Bytecode
