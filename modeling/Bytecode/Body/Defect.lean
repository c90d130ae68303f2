import Bytecode.Body
/-!
# Checking a body

A body is checked in two rounds. The first walks all definitions, block by block, and reports a value that was never
created or that is defined twice. The second takes the blocks in order and reports, for the first block that has one,
the first of these defects: it is empty, its last instruction ends no block, it has not as many successors as that
instruction needs, it has a terminator before its end, it leads to a block that does not exist, one of its phis has not
one operand per predecessor, or it uses a value that is nowhere defined.
-/

namespace Bytecode

/-- What can be wrong with a body. Blocks are given by their position. -/
inductive Defect where
  | noBlocks
  | unallocated (value : ValueId)
  | definedTwice (value : ValueId)
  | emptyBlock (block : Nat)
  | openEnd (block : Nat) (last : Operation)
  | wrongSuccessorCount (block successors : Nat) (last : Operation) (needed : Nat)
  | earlyTerminator (block : Nat) (operation : Operation)
  | missingTarget (block target : Nat)
  | wrongPhiArity (block : Nat) (phi : Phi) (predecessors : Nat)
  | undefinedUse (block : Nat) (value : ValueId)
deriving DecidableEq, Inhabited

def Defect.message : Defect → String
  | .noBlocks => "method has no blocks"
  | .unallocated value => s!"{value.text} was never allocated"
  | .definedTwice value => s!"{value.text} is defined twice"
  | .emptyBlock block => s!"block {block} is empty"
  | .openEnd block last => s!"block {block} ends in non-terminator {last.mnemonic}"
  | .wrongSuccessorCount block successors last needed =>
    s!"block {block} has {successors} successors, {last.mnemonic} needs {needed}"
  | .earlyTerminator block operation => s!"block {block} contains {operation.mnemonic} before its end"
  | .missingTarget block target => s!"block {block} jumps to missing block {target}"
  | .wrongPhiArity block phi predecessors =>
    s!"phi {phi.dest.text} in block {block} has {phi.operands.length} operands for {predecessors} predecessors"
  | .undefinedUse block value => s!"block {block} uses undefined value {value.text}"

/-- The first value outside the table of `allocated` values, or defined a second time. -/
def definitionDefect? (allocated : Nat) : (pending seen : List ValueId) → Option Defect
  | [], _ => none
  | value :: pending, seen =>
    if allocated ≤ value.index then some (.unallocated value)
    else if value ∈ seen then some (.definedTwice value)
    else definitionDefect? allocated pending (value :: seen)

namespace Block

/-- The block ends in a terminator that fits its successors. -/
def endDefect? (block : Block) (position : Nat) : Option Defect :=
  match block.instructions.getLast? with
  | none => some (.emptyBlock position)
  | some last =>
    match last.operation.successorCount? with
    | none => some (.openEnd position last.operation)
    | some needed =>
      if needed = block.successors.length then none
      else some (.wrongSuccessorCount position block.successors.length last.operation needed)

def earlyTerminatorDefect? (block : Block) (position : Nat) : Option Defect :=
  (block.instructions.dropLast.find? (·.operation.isTerminator)).map fun instruction =>
    .earlyTerminator position instruction.operation

def targetDefect? (block : Block) (position blockCount : Nat) : Option Defect :=
  (block.allSuccessors.find? (blockCount ≤ ·)).map (.missingTarget position)

def phiDefect? (block : Block) (position predecessorCount : Nat) : Option Defect :=
  (block.phis.find? (·.operands.length ≠ predecessorCount)).map fun phi =>
    .wrongPhiArity position phi predecessorCount

def useDefect? (block : Block) (position : Nat) (defined : List ValueId) : Option Defect :=
  (block.uses.find? (· ∉ defined)).map (.undefinedUse position)

end Block

namespace Body

def blockDefect? (body : Body) (position : Nat) (block : Block) : Option Defect :=
  block.endDefect? position
    |>.or (block.earlyTerminatorDefect? position)
    |>.or (block.targetDefect? position body.blocks.length)
    |>.or (block.phiDefect? position (body.predecessors position).length)
    |>.or (block.useDefect? position body.definitions)

/-- The first defect of the body. -/
def defect? (body : Body) : Option Defect :=
  if body.blocks.isEmpty then some .noBlocks
  else
    (definitionDefect? body.values.length body.definitions []).or
      (body.blocks.zipIdx.findSome? fun (block, position) => body.blockDefect? position block)

end Body

end Bytecode
