import Bytecode.CallGraph
import Bytecode.Event
import Bytecode.Program.Resolution
/-!
# Building the call graph

The graph of a program has a node for each method of the program's own classes. Every invocation in such a method's body
is bound, after its reference has been mapped, and contributes a call to the bound method if that belongs to the
program. A dynamic invocation contributes the other possible targets as well, each once.
-/

namespace Bytecode

/-- Renamed methods: a reference with an entry stands for the one it is mapped to. An image is not mapped again. -/
abbrev MethodMapping := Table MethodRef MethodRef

def MethodMapping.apply (mapping : MethodMapping) (reference : MethodRef) : MethodRef :=
  (mapping.find? reference).getD reference

namespace Program

/-- The possible targets of a dynamic call that binds to this method. -/
def dynamicTargets (program : Program) (definition : MethodDef) : List MethodId :=
  if (program.class? definition.holder).any (·.isInterface) then program.interfaceTargets definition
  else program.virtualTargets definition

/-- The methods of the program that one invocation may run: the bound method and then the other targets. -/
def siteTargets (program : Program) (mapping : MethodMapping) (kind : InvokeKind) (reference : MethodRef) :
    List MethodId :=
  match program.resolveMethod? kind (mapping.apply reference) with
  | none => []
  | some definition =>
    if program.isProgramMethod definition then
      let others := if kind.isDynamicDispatch then program.dynamicTargets definition else []
      definition.id :: others.filter fun target =>
        target ≠ definition.id && (program.method? target).any program.isProgramMethod
    else []

/-- The targets of all invocations in the body of a method, call site by call site. -/
def callTargets (program : Program) (mapping : MethodMapping) (method : MethodId) : List MethodId :=
  match program.body? method with
  | none => []
  | some body => body.invocations.flatMap fun (kind, reference) => program.siteTargets mapping kind reference

end Program

/-- Appends an element unless the list has it. -/
def appendNew {α : Type} [DecidableEq α] (elements : List α) (element : α) : List α :=
  if element ∈ elements then elements else elements ++ [element]

namespace CallGraph

/-- The slot of a method, which gets a node unless it has one. -/
def ensureNode (graph : CallGraph) (method : MethodId) (isBridge : Bool) : CallGraph × Nat :=
  match graph.index.find? method with
  | some position => (graph, position)
  | none =>
    let position := graph.slots.length
    ({ graph with
        slots := graph.slots ++ [some { method, isBridge }]
        index := graph.index.insert method position
        live := graph.live + 1 }, position)

/-- Records one call site between nodes. -/
def addCall (graph : CallGraph) (caller callee : Nat) : CallGraph :=
  let linked :=
    if caller = callee then graph.modifySlot caller ({ · with isSelfRecursive := true })
    else
      (graph.modifySlot caller fun slot => { slot with callees := appendNew slot.callees callee }).modifySlot callee
        fun slot => { slot with callers := appendNew slot.callers caller }
  linked.modifySlot callee fun slot => { slot with invokeCount := slot.invokeCount + 1 }

/-- The slot of a method of the program. -/
def ensureMethod (program : Program) (graph : CallGraph) (method : MethodId) : CallGraph × Nat :=
  graph.ensureNode method ((program.method? method).any (·.isBridge))

/-- Records a call site of a node that may run the target. -/
def addTarget (program : Program) (caller : Nat) (graph : CallGraph) (target : MethodId) : CallGraph :=
  let (graph, callee) := graph.ensureMethod program target
  graph.addCall caller callee

/-- Adds a method with the calls that its body makes. -/
def addMethod (program : Program) (mapping : MethodMapping) (graph : CallGraph) (method : MethodId) : CallGraph :=
  let (graph, caller) := graph.ensureMethod program method
  (program.callTargets mapping method).foldl (addTarget program caller) graph

/-- The methods with a given number of call sites. Without the whole program nothing is known of call sites, and a
pinned method may have others. -/
def methodsWithCallSites (program : Program) (graph : CallGraph) (count : Nat) : List MethodId :=
  if program.liveness.isSome then
    (graph.nodes.filter fun node => node.invokeCount = count && !program.isPinnedMethod node.method).map (·.method)
  else []

/-- The call graph of a program, references mapped by `mapping`. -/
def build (program : Program) (mapping : MethodMapping) : CallGraph :=
  let graph := program.programMethods.foldl (addMethod program mapping) {}
  { graph with
    leaves := (graph.entries.filter (·.2.isLeaf)).map (·.1)
    singleCallSite := methodsWithCallSites program graph 1
    doubleCallSite := methodsWithCallSites program graph 2 }

/-- The event that tells the size of a new graph. -/
def builtEvent (graph : CallGraph) : Event :=
  { kind := .callGraphBuilt
    message := s!"{graph.size} methods, {graph.edgeCount} calls, {graph.leaves.length} initial leaves" }

end CallGraph

end Bytecode
