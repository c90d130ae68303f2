import Bytecode.Program
import Bytecode.Text.Decimal
import Bytecode.Text.Escape
/-!
# Call graphs

A call graph has a node for each method it holds and an edge from a method to each other method it may call. An edge is
recorded at both of its ends, once however many call sites cause it; the number of call sites is counted at the callee.
A call of a method to itself makes no edge and is recorded as a mark on the node.

The nodes stand in slots, in the order in which they were added, and edges name the slots of their ends. A node that is
removed leaves an empty slot, so every other node keeps its place. The graph has an index from methods to slots and
counts the nodes that are left. From outside it is read by methods: `nodes`, `callees` and `callers` name no slot.

The graph is taken apart from the leaves. It lists the slots of the methods without calls in the order in which these
lost their last call; their methods are the *frontier*.
-/

namespace Bytecode

/-- A node as it is read from outside. -/
structure CallNode where
  method : MethodId
  isBridge : Bool
  /-- Call sites that may run the method, its own included. -/
  invokeCount : Nat := 0
  isSelfRecursive : Bool := false
  /-- The methods it still calls, in the order in which the calls were found. -/
  callees : List MethodId := []
  /-- The methods that still call it, in the order in which the calls were found. -/
  callers : List MethodId := []
deriving DecidableEq, Inhabited

namespace CallNode

def degree (node : CallNode) : Nat :=
  node.callees.length

def isLeaf (node : CallNode) : Bool :=
  node.callees.isEmpty

def text (node : CallNode) : String :=
  s!"{node.method.text} ({node.callees.length} callees, {node.callers.length} callers" ++
    (if node.isBridge then ", bridge" else "") ++
    (if node.isSelfRecursive then ", recursive" else "") ++
    s!", invoke count {node.invokeCount})"

end CallNode

/-- A node in its slot. Its edges name the slots of their other ends. -/
structure CallSlot where
  method : MethodId
  isBridge : Bool
  invokeCount : Nat := 0
  isSelfRecursive : Bool := false
  callees : List Nat := []
  callers : List Nat := []
deriving DecidableEq, Inhabited

namespace CallSlot

def degree (slot : CallSlot) : Nat :=
  slot.callees.length

def isLeaf (slot : CallSlot) : Bool :=
  slot.callees.isEmpty

end CallSlot

structure CallGraph where
  /-- The nodes in the order in which they were added. The slot of a removed node is empty. -/
  slots : List (Option CallSlot) := []
  /-- The slots of the methods that have a node. -/
  index : Table MethodId Nat := .empty
  /-- The number of nodes. -/
  live : Nat := 0
  /-- The slots of the methods without calls. -/
  leaves : List Nat := []
  /-- Methods known to have exactly one call site when the graph was built. -/
  singleCallSite : List MethodId := []
  /-- Methods known to have exactly two call sites when the graph was built. -/
  doubleCallSite : List MethodId := []
deriving DecidableEq, Inhabited

namespace CallGraph

/-! ### Slots -/

/-- The node in a slot, unless it was removed. -/
def slot? (graph : CallGraph) (position : Nat) : Option CallSlot :=
  graph.slots[position]?.join

def modifySlot (graph : CallGraph) (position : Nat) (f : CallSlot → CallSlot) : CallGraph :=
  { graph with slots := graph.slots.modify position (·.map f) }

/-- The nodes in these slots, with their positions. -/
def entriesAt (graph : CallGraph) (positions : List Nat) : List (Nat × CallSlot) :=
  positions.filterMap fun position => (graph.slot? position).map (position, ·)

/-- All slots, empty ones included. -/
def positions (graph : CallGraph) : List Nat :=
  List.range graph.slots.length

/-- The nodes with their positions, in the order in which they were added. -/
def entries (graph : CallGraph) : List (Nat × CallSlot) :=
  graph.entriesAt graph.positions

def methodAt? (graph : CallGraph) (position : Nat) : Option MethodId :=
  (graph.slot? position).map (·.method)

/-- The methods in these slots. Empty slots are passed over. -/
def methodsAt (graph : CallGraph) (positions : List Nat) : List MethodId :=
  positions.filterMap graph.methodAt?

/-! ### Methods -/

/-- The node in a slot as it is read from outside. -/
def node (graph : CallGraph) (slot : CallSlot) : CallNode where
  method := slot.method
  isBridge := slot.isBridge
  invokeCount := slot.invokeCount
  isSelfRecursive := slot.isSelfRecursive
  callees := graph.methodsAt slot.callees
  callers := graph.methodsAt slot.callers

/-- The remaining nodes, in the order in which they were added. -/
def nodes (graph : CallGraph) : List CallNode :=
  graph.entries.map fun (_, slot) => graph.node slot

/-- The methods without calls, in the order in which they lost their last call. -/
def frontier (graph : CallGraph) : List MethodId :=
  graph.methodsAt graph.leaves

def size (graph : CallGraph) : Nat :=
  graph.live

def isEmpty (graph : CallGraph) : Bool :=
  graph.live = 0

def node? (graph : CallGraph) (method : MethodId) : Option CallNode :=
  ((graph.index.find? method).bind graph.slot?).map graph.node

def contains (graph : CallGraph) (method : MethodId) : Bool :=
  (graph.node? method).isSome

def methods (graph : CallGraph) : List MethodId :=
  graph.nodes.map (·.method)

def callees (graph : CallGraph) (method : MethodId) : List MethodId :=
  ((graph.node? method).map (·.callees)).getD []

def callers (graph : CallGraph) (method : MethodId) : List MethodId :=
  ((graph.node? method).map (·.callers)).getD []

def edgeCount (graph : CallGraph) : Nat :=
  graph.entries.foldr (fun (_, slot) rest => slot.degree + rest) 0

def hasSingleCallSite (graph : CallGraph) (method : MethodId) : Bool :=
  graph.singleCallSite.contains method

def hasDoubleCallSite (graph : CallGraph) (method : MethodId) : Bool :=
  graph.doubleCallSite.contains method

/-! ### Symmetry -/

/-- What the edges of a node have against the graph. -/
def edgeDefect? (graph : CallGraph) (position : Nat) (slot : CallSlot) : Option Error :=
  if slot.callees.contains position || slot.callers.contains position then some (.selfEdge slot.method)
  else
    (slot.callees.findSome? fun callee =>
      match graph.slot? callee with
      | none => some (.calleeGone slot.method callee)
      | some target =>
        if target.callers.contains position then none else some (.callerUnlisted slot.method target.method)).or
    (slot.callers.findSome? fun caller =>
      match graph.slot? caller with
      | none => some (.callerGone slot.method caller)
      | some source =>
        if source.callees.contains position then none else some (.calleeUnlisted slot.method source.method))

/-- Every edge is recorded at both ends, and none leads to its own node or to a node that is gone. -/
def checkSymmetry (graph : CallGraph) : Except Error Unit :=
  match graph.entries.findSome? fun (position, slot) => graph.edgeDefect? position slot with
  | none => .ok ()
  | some error => .error error

/-! ### Statistics -/

structure Stats where
  methods : Nat := 0
  edges : Nat := 0
  invokes : Nat := 0
  selfRecursive : Nat := 0
  bridges : Nat := 0
  leaves : Nat := 0
  singleCallSites : Nat := 0
  doubleCallSites : Nat := 0
deriving DecidableEq, Inhabited

/-- The average number of callees, with six decimals. -/
def Stats.averageDegree (stats : Stats) : String :=
  Text.average stats.edges stats.methods

/-- Counts the remaining nodes; the call-site classes stay as they were found. -/
def stats (graph : CallGraph) : Stats where
  methods := graph.entries.length
  edges := graph.edgeCount
  invokes := graph.entries.foldr (fun (_, slot) rest => slot.invokeCount + rest) 0
  selfRecursive := graph.entries.countP fun (_, slot) => slot.isSelfRecursive
  bridges := graph.entries.countP fun (_, slot) => slot.isBridge
  leaves := graph.entries.countP fun (_, slot) => slot.isLeaf
  singleCallSites := graph.singleCallSite.length
  doubleCallSites := graph.doubleCallSite.length

/-! ### Drawing -/

/-- Bridges are grey, self-recursive methods orange and leaves blue. -/
def nodeStyle (node : CallNode) : String :=
  if node.isBridge then ", style=filled, fillcolor=lightgrey"
  else if node.isSelfRecursive then ", style=filled, fillcolor=orange"
  else if node.isLeaf then ", style=filled, fillcolor=lightblue"
  else ""

/-- The lines of a drawing of the remaining graph, nodes labelled by `label`. -/
def drawingLines (graph : CallGraph) (label : MethodId → String) (title : String) : List String :=
  let nodeLines := graph.nodes.map fun node =>
    s!"    \"{node.method.text}\" [label=\"{Text.escapeLabel (label node.method)}\"{nodeStyle node}];"
  let edgeLines := graph.nodes.flatMap fun node =>
    node.callees.map fun callee => s!"    \"{node.method.text}\" -> \"{callee.text}\";"
  ["digraph CallGraph \x7b",
    s!"    label=\"{Text.escapeLabel title}\";",
    "    labelloc=t;",
    "    node [shape=box, fontname=\"Courier\", fontsize=10];",
    "    rankdir=BT;",
    ""] ++ nodeLines ++ [""] ++ edgeLines ++ ["\x7d"]

/-- Describes the remaining graph for a graph drawing tool. -/
def drawing (graph : CallGraph) (program : Program) (title : Option String) : String :=
  let label (method : MethodId) : String := ((program.method? method).map program.methodLabel).getD method.text
  String.join ((graph.drawingLines label (title.getD "Call Graph")).map (· ++ "\n"))

end CallGraph

end Bytecode
