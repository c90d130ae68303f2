import Bytecode.CallGraph
import Bytecode.Event
import Bytecode.Settings
/-!
# Passes over method bodies

A pass looks at one method body and may return another one. It sees the program, the settings and, under a scheduler,
what is left of the call graph; it changes none of them. What it did is reported as an outcome: the body, whether that
differs, the values whose operands changed and the events to be logged.
-/

namespace Bytecode

structure PassContext where
  program : Program
  settings : Settings
  /-- The remaining call graph, under a scheduler. -/
  callGraph : Option CallGraph := none

structure PassOutcome where
  body : Body
  changed : Bool := false
  /-- Values whose operands changed, so that their type may be narrower now. -/
  affected : List ValueId := []
  events : List Event := []

/-- The outcome of a pass that left the body alone. -/
def PassOutcome.unchanged (body : Body) : PassOutcome :=
  { body }

structure MethodPass where
  name : String
  description : String := "No description available"
  /-- The pass is run only on bodies to which it applies. -/
  applies : PassContext → Body → Bool := fun _ _ => true
  run : PassContext → Body → Except Error PassOutcome

end Bytecode
