import Bytecode.Body.Defect
/-!
# Errors

Everything that can stop an operation of the library is one of these causes. What the analysed program leaves
unresolved is never an error: it is treated conservatively. The first three causes are identifiers that lie outside
their table where a definition is needed.
-/

namespace Bytecode

inductive Error where
  | unknownMethod (method : MethodId)
  | unknownField (field : FieldId)
  | missingBlock (block : Nat)
  /-- A wave of the call graph holds a method that was processed before. -/
  | alreadyProcessed (method : MethodId)
  /-- A call graph with nodes has no leaf, even after cycles were cut. -/
  | noLeaves (nodes : Nat)
  /-- A slot that is listed as a leaf is empty. -/
  | leafGone (position : Nat)
  /-- A method that is listed as a leaf still has calls. -/
  | leafHasCalls (method : MethodId) (calls : Nat)
  /-- A method is recorded as its own callee or caller. -/
  | selfEdge (method : MethodId)
  /-- A call to an empty slot. -/
  | calleeGone (caller : MethodId) (position : Nat)
  /-- A call that the callee does not know of. -/
  | callerUnlisted (caller callee : MethodId)
  /-- A caller in an empty slot. -/
  | callerGone (callee : MethodId) (position : Nat)
  /-- A caller that does not know of its call. -/
  | calleeUnlisted (callee caller : MethodId)
  | defectiveBody (method : MethodId) (defect : Defect)
  /-- A field can only be added to a class of the program. -/
  | foreignHolder (field : String) (typeName : String)
  /-- A pass or a narrowing step gave up for a reason of its own. -/
  | rejected (reason : String)
deriving DecidableEq, Inhabited

namespace Error

def message : Error → String
  | .unknownMethod method => s!"no method {method.text}"
  | .unknownField field => s!"no field {field.text}"
  | .missingBlock block => s!"no block {block}"
  | .alreadyProcessed method => s!"Method {method.text} was scheduled after it had already been processed"
  | .noLeaves nodes => s!"No leaves could be extracted from a call graph with {nodes} nodes"
  | .leafGone position => s!"leaf {position} is no longer in the call graph"
  | .leafHasCalls method calls => s!"leaf {method.text} still calls {calls} methods"
  | .selfEdge method => s!"{method.text} has an edge to itself"
  | .calleeGone caller position => s!"{caller.text} calls a removed node {position}"
  | .callerUnlisted caller callee => s!"{caller.text} calls {callee.text} but is not among its callers"
  | .callerGone callee position => s!"{callee.text} is called by a removed node {position}"
  | .calleeUnlisted callee caller => s!"{callee.text} lists {caller.text} as caller but is not among its callees"
  | .defectiveBody method defect => s!"Inconsistent code in method {method.text}: {defect.message}"
  | .foreignHolder field typeName => s!"cannot add field {field} to non-program type {typeName}"
  | .rejected reason => reason

end Error

/-- Accepts a body without defects. -/
def Body.check (body : Body) : Except Error Unit :=
  match body.defect? with
  | none => .ok ()
  | some defect => .error (.defectiveBody body.method defect)

end Bytecode
