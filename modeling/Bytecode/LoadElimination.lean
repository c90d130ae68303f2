import Bytecode.Body.TrivialPhi
import Bytecode.Graph.Dominators
import Bytecode.LoadElimination.Facts
/-!
# Eliminating redundant field loads

A field read is redundant if the field's value is known where it stands: its result is replaced by an earlier value, or
the read by the creation of a constant. An initialization check is redundant if the class is known to be initialized.
A read whose result is bound to a local stays, so that a debugger sees it.

The blocks are visited once, each after its dominators. A block with exactly one predecessor starts with the facts that
predecessor ended with, any other block with none. Along an exceptional edge the facts exclude what the instruction that
throws would have established, and a block with several such instructions passes nothing to its handlers.
-/

namespace Bytecode.LoadElimination

def passName : String :=
  "redundant-field-load-elimination"

structure Stats where
  eliminated : Nat := 0
  materialized : Nat := 0
  initChecksRemoved : Nat := 0
  affectedValues : Nat := 0
deriving DecidableEq, Inhabited

namespace Stats

/-- The number of instructions that were replaced or removed. -/
def total (stats : Stats) : Nat :=
  stats.eliminated + stats.materialized + stats.initChecksRemoved

def hasChanges (stats : Stats) : Bool :=
  0 < stats.total

def text (stats : Stats) : String :=
  s!"{stats.eliminated} loads eliminated, {stats.materialized} materialized, " ++
    s!"{stats.initChecksRemoved} init-class checks removed"

end Stats

/-! ### Redundant instructions -/

/-- What makes an instruction redundant. -/
inductive Redundancy where
  | existingValue (dest value : ValueId)
  | constantValue (dest : ValueId) (constant : Constant)
  | initialized (type : TypeId)
deriving DecidableEq, Inhabited

namespace Scope

/-- A known value that can be used here. -/
def usable? (scope : Scope) (dest : ValueId) : Known → Option Redundancy
  | .existing value => some (.existingValue dest value)
  | .constant constant =>
    if scope.program.isMaterializable constant scope.holder then some (.constantValue dest constant) else none

def redundancy? (scope : Scope) (body : Body) (facts : Facts) : Operation → Option Redundancy
  | .instanceGet dest object field => do
    let definition ← scope.trackedField? field false
    if body.hasLocalInfo dest then none
    else scope.usable? dest (← facts.fields.instance? definition.id (body.aliasRoot object))
  | .staticGet dest field => do
    let definition ← scope.trackedField? field true
    if body.hasLocalInfo dest then none
    else scope.usable? dest (← facts.fields.static? definition.id)
  | .initClass _ type => if type ∈ facts.initialized then some (.initialized type) else none
  | _ => none

end Scope

/-! ### The sweep -/

/-- A body in the course of the sweep, with what has been done to it. -/
structure Sweep where
  body : Body
  stats : Stats := {}
  affected : List ValueId := []
  events : List Event := []

namespace Sweep

def record (sweep : Sweep) (scope : Scope) (block : Nat) (kind : EventKind) (message : String) : Sweep :=
  let event : Event := { kind, method := scope.method, location := block, message, pass := passName }
  { sweep with events := sweep.events ++ [event] }

/-- Eliminates the redundant instruction at a place of the body. -/
def eliminate (sweep : Sweep) (scope : Scope) (block position : Nat) : Redundancy → Sweep
  | .existingValue dest value =>
    { sweep with
      body := (sweep.body.replaceUses dest value).discardInstruction block position
      stats.eliminated := sweep.stats.eliminated + 1
      affected := sweep.affected ++ sweep.body.affectedBy dest
      }.record scope block .fieldLoadEliminated s!"{dest.text} -> {value.text}"
  | .constantValue dest constant =>
    { sweep with
      body := sweep.body.replaceOperation block position (constant.materialize dest)
      stats.materialized := sweep.stats.materialized + 1
      affected := sweep.affected ++ sweep.body.affectedBy dest
      }.record scope block .fieldLoadMaterialized s!"{dest.text} = {constant.text}"
  | .initialized type =>
    { sweep with
      body := sweep.body.discardInstruction block position
      stats.initChecksRemoved := sweep.stats.initChecksRemoved + 1
      }.record scope block .initClassRemoved (scope.program.typeName type)

end Sweep

/-- Whether eliminating takes the instruction out of its block. A constant is created in place of the read, and debug
values keep their instruction. -/
def isRemoved (instruction : Instruction) : Redundancy → Bool
  | .constantValue .. => false
  | .existingValue .. | .initialized _ => instruction.debugValues.isEmpty

/-- Visits the `remaining` instructions of a block from `position` on. -/
def sweepBlock (scope : Scope) (block : Nat) :
    (remaining position : Nat) → Sweep → Facts → Except Error (Sweep × Facts)
  | 0, _, sweep, facts => .ok (sweep, facts)
  | remaining + 1, position, sweep, facts =>
    match sweep.body.instruction? block position with
    | none => .ok (sweep, facts)
    | some instruction =>
      match scope.redundancy? sweep.body facts instruction.operation with
      | some redundancy =>
        let next := if isRemoved instruction redundancy then position else position + 1
        sweepBlock scope block remaining next (sweep.eliminate scope block position redundancy) facts
      | none => do
        let facts ← scope.after sweep.body facts instruction.operation
        sweepBlock scope block remaining (position + 1) sweep facts

/-- The facts that a block which ended with `facts` passes to one of its successors. -/
def passedFacts (scope : Scope) (body : Body) (block : Block) (facts : Facts) (successor : Nat) : Facts :=
  if !block.hasCatchSuccessor successor then facts
  else if 1 < block.throwers.length then {}
  else
    match block.exceptionalExit?.bind (block.instructions[·]?) with
    | some instruction => scope.withoutEffectOf body facts instruction.operation
    | none => facts

/-- The facts waiting for blocks that have not been visited. -/
abbrev Waiting := Table Nat Facts

/-- Leaves facts for the successors that have no other predecessor. -/
def propagate (scope : Scope) (body : Body) (position : Nat) (facts : Facts) (waiting : Waiting) : Waiting :=
  match body.block? position with
  | none => waiting
  | some block =>
    block.allSuccessors.foldl (fun waiting successor =>
      if (body.predecessors successor).length = 1 then
        waiting.insert successor (passedFacts scope body block facts successor)
      else waiting) waiting

/-- Visits one block with the facts left for it. -/
def visitBlock (scope : Scope) (state : Sweep × Waiting) (block : Nat) : Except Error (Sweep × Waiting) := do
  let (sweep, waiting) := state
  let start := (waiting.find? block).getD {}
  let length := ((sweep.body.block? block).map (·.instructions.length)).getD 0
  let (swept, facts) ← sweepBlock scope block length 0 sweep start
  return (swept, propagate scope swept.body block facts (waiting.erase block))

/-- Visits all blocks that can be reached, each after its dominators. -/
def sweepBody (scope : Scope) (body : Body) : Except Error Sweep := do
  let order := (DominatorTree.ofGraph body.flowGraph 0).preorder
  let (sweep, _) ← order.foldlM (visitBlock scope) ({ body }, .empty)
  return sweep

/-! ### The pass -/

/-- What the sweep leaves, without phis that became trivial, and the counters of the run. -/
def finish (scope : Scope) (sweep : Sweep) : PassOutcome × Stats :=
  if sweep.stats.hasChanges then
    let affected := ascending ValueId.index sweep.affected
    let stats := { sweep.stats with affectedValues := affected.length }
    let completed : Event :=
      { kind := .passCompleted, method := scope.method, message := stats.text, pass := passName }
    ({ body := sweep.body.removeTrivialPhis.1, changed := true, affected, events := sweep.events ++ [completed] },
      stats)
  else (.unchanged sweep.body, sweep.stats)

/-- Runs the pass on a body of one of the program's methods and returns its counters as well. -/
def runWithStats (context : PassContext) (body : Body) : Except Error (PassOutcome × Stats) := do
  let definition ← context.program.method body.method
  let scope : Scope :=
    { program := context.program, settings := context.settings, method := body.method, holder := definition.holder }
  return finish scope (← sweepBody scope body)

def pass : MethodPass where
  name := passName
  description := "Eliminates field reads and class-initialization checks with known outcomes"
  applies context body := context.settings.eliminateLoads && body.hasFieldReadOrInitCheck
  run context body := (·.1) <$> runWithStats context body

end Bytecode.LoadElimination
