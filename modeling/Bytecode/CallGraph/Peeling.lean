import Bytecode.CallGraph
/-!
# Taking a call graph apart

A wave is the frontier of the graph: the methods that call nothing that is still there. Picking a wave empties their
slots, and callers that lose their last call form the next frontier. If a graph with nodes has no leaf, every node is
on a cycle or leads to one, and calls are cut first: those of every method with at most one call, bridges excepted,
or if there is none those of every method with the fewest calls. A wave records which calls were cut.

Every wave takes at least one node away, so picking comes to an end.
-/

namespace Bytecode

/-- The methods removed by one step, in the order of their removal. -/
structure Wave where
  methods : List MethodId
  brokeCycles : Bool := false
  /-- The methods whose calls were cut, with the methods they called. -/
  severed : List (MethodId × List MethodId) := []
deriving DecidableEq, Inhabited

namespace Wave

def severedCount (wave : Wave) : Nat :=
  (wave.severed.flatMap (·.2)).length

def text (wave : Wave) : String :=
  s!"Leaves: {wave.methods.length}, " ++
    (if wave.brokeCycles then "call cycles broken" else "no call cycles broken")

end Wave

namespace CallGraph

/-! ### Removing leaves -/

/-- Takes a call out of the caller's node. If it was the last one, the caller joins the leaves. -/
def dropCall (callee : Nat) (graph : CallGraph) (caller : Nat) : CallGraph :=
  let rest := graph.modifySlot caller fun slot => { slot with callees := slot.callees.erase callee }
  if (rest.slot? caller).any (·.isLeaf) then { rest with leaves := rest.leaves ++ [caller] } else rest

/-- The graph without a node that calls nothing. -/
def withoutLeaf (graph : CallGraph) (position : Nat) (leaf : CallSlot) : CallGraph :=
  let cleared := { graph with slots := graph.slots.set position none }
  let rest := leaf.callers.foldl (dropCall position) cleared
  { rest with index := rest.index.erase leaf.method, live := rest.live - 1 }

/-- Removes a node without calls and tells its method. -/
def removeLeaf (graph : CallGraph) (position : Nat) : Except Error (MethodId × CallGraph) :=
  match graph.slot? position with
  | none => .error (.leafGone position)
  | some leaf =>
    if leaf.isLeaf then .ok (leaf.method, graph.withoutLeaf position leaf)
    else .error (.leafHasCalls leaf.method leaf.degree)

/-- Removes nodes one after another and tells their methods in this order. -/
def removeLeaves : List Nat → CallGraph → Except Error (List MethodId × CallGraph)
  | [], graph => .ok ([], graph)
  | position :: positions, graph => do
    let (method, next) ← graph.removeLeaf position
    let (methods, rest) ← removeLeaves positions next
    return (method :: methods, rest)

/-! ### Cutting cycles -/

/-- A graph while calls are being cut. -/
structure Cutting where
  graph : CallGraph
  severed : List (MethodId × List MethodId) := []
  /-- The least number of calls among the methods passed over. -/
  leastDegree : Nat

namespace Cutting

/-- Cuts all calls of a node, which makes it a leaf. -/
def sever (cutting : Cutting) (position : Nat) (slot : CallSlot) : Cutting :=
  let cleared := cutting.graph.modifySlot position ({ · with callees := [] })
  let cut := slot.callees.foldl (fun graph callee =>
    graph.modifySlot callee fun target => { target with callers := target.callers.erase position }) cleared
  { cutting with
    graph := { cut with leaves := cut.leaves ++ [position] }
    severed := cutting.severed ++ [(slot.method, cleared.methodsAt slot.callees)] }

/-- First round: methods with at most one call, but no bridges. -/
def cutSingleCall (cutting : Cutting) (position : Nat) : Cutting :=
  match cutting.graph.slot? position with
  | none => cutting
  | some slot =>
    if !slot.isBridge && slot.degree ≤ 1 then cutting.sever position slot
    else { cutting with leastDegree := min cutting.leastDegree slot.degree }

/-- Second round: methods with the fewest calls. -/
def cutLeastDegree (cutting : Cutting) (position : Nat) : Cutting :=
  match cutting.graph.slot? position with
  | none => cutting
  | some slot => if slot.degree ≤ cutting.leastDegree then cutting.sever position slot else cutting

end Cutting

/-- Cuts calls until some methods are leaves. -/
def breakCycles (graph : CallGraph) : Cutting :=
  let first := graph.positions.foldl Cutting.cutSingleCall { graph, leastDegree := graph.size }
  if first.graph.leaves.isEmpty then graph.positions.foldl Cutting.cutLeastDegree first else first

/-! ### Picking waves -/

/-- Removes the leaves and reports their methods as a wave; what becomes a leaf on the way is left for the next wave. A
wave with a processed method is refused, but its methods are gone from the graph. -/
def takeWave (graph : CallGraph) (isProcessed : MethodId → Bool) (brokeCycles : Bool)
    (severed : List (MethodId × List MethodId)) : CallGraph × Except Error (Option Wave) :=
  match removeLeaves graph.leaves { graph with leaves := [] } with
  | .error error => (graph, .error error)
  | .ok (methods, rest) =>
    if methods.isEmpty then (rest, .error (.noLeaves rest.size))
    else match methods.find? isProcessed with
      | some method => (rest, .error (.alreadyProcessed method))
      | none => (rest, .ok (some { methods, brokeCycles, severed }))

/-- The next wave and the graph without it; no wave if the graph is empty. -/
def pick (graph : CallGraph) (isProcessed : MethodId → Bool) : CallGraph × Except Error (Option Wave) :=
  if graph.isEmpty then (graph, .ok none)
  else if graph.leaves.isEmpty then
    let cutting := graph.breakCycles
    cutting.graph.takeWave isProcessed true cutting.severed
  else graph.takeWave isProcessed false []

/-! ### Sizes -/

@[simp] theorem size_modifySlot (graph : CallGraph) (position : Nat) (f : CallSlot → CallSlot) :
    (graph.modifySlot position f).size = graph.size :=
  rfl

@[simp] theorem size_dropCall (callee : Nat) (graph : CallGraph) (caller : Nat) :
    (dropCall callee graph caller).size = graph.size := by
  unfold dropCall
  simp only
  split <;> rfl

private theorem size_withoutLeaf (graph : CallGraph) (position : Nat) (leaf : CallSlot) :
    (graph.withoutLeaf position leaf).size = graph.size - 1 := by
  have hfold : ∀ (callers : List Nat) (graph : CallGraph),
      (callers.foldl (dropCall position) graph).size = graph.size := by
    intro callers
    induction callers with
    | nil => intro graph; rfl
    | cons caller callers ih => intro graph; rw [List.foldl_cons, ih, size_dropCall]
  exact congrArg (· - 1) (hfold leaf.callers { graph with slots := graph.slots.set position none })

private theorem size_removeLeaf {graph rest : CallGraph} {position : Nat} {method : MethodId}
    (h : graph.removeLeaf position = .ok (method, rest)) : rest.size = graph.size - 1 := by
  unfold removeLeaf at h
  split at h
  · cases h
  · split at h
    · cases h
      exact size_withoutLeaf ..
    · cases h

/-- A successful removal of several nodes is one of the first and one of the others. -/
theorem exists_of_removeLeaves_cons {position : Nat} {positions : List Nat} {graph rest : CallGraph}
    {methods : List MethodId} (h : removeLeaves (position :: positions) graph = .ok (methods, rest)) :
    ∃ method later next, graph.removeLeaf position = .ok (method, next) ∧
      removeLeaves positions next = .ok (later, rest) ∧ methods = method :: later := by
  rw [removeLeaves] at h
  cases hleaf : graph.removeLeaf position with
  | error error => simp [hleaf, bind, Except.bind] at h
  | ok removed =>
    cases hrest : removeLeaves positions removed.2 with
    | error error => simp [hleaf, hrest, bind, Except.bind] at h
    | ok others =>
      obtain ⟨rfl, rfl⟩ : removed.1 :: others.1 = methods ∧ others.2 = rest := by
        simpa [hleaf, hrest, bind, Except.bind, pure, Except.pure] using h
      exact ⟨removed.1, others.1, removed.2, rfl, hrest, rfl⟩

private theorem size_removeLeaves {positions : List Nat} {graph rest : CallGraph} {methods : List MethodId}
    (h : removeLeaves positions graph = .ok (methods, rest)) : rest.size = graph.size - methods.length := by
  induction positions generalizing graph methods with
  | nil =>
    cases h
    rfl
  | cons position positions ih =>
    obtain ⟨method, later, next, hleaf, hrest, rfl⟩ := exists_of_removeLeaves_cons h
    rw [ih hrest, size_removeLeaf hleaf, List.length_cons]
    omega

@[simp] theorem Cutting.size_sever (cutting : Cutting) (position : Nat) (slot : CallSlot) :
    (cutting.sever position slot).graph.size = cutting.graph.size := by
  have hfold : ∀ (callees : List Nat) (graph : CallGraph),
      (callees.foldl (fun graph callee => graph.modifySlot callee fun target =>
        { target with callers := target.callers.erase position }) graph).size = graph.size := by
    intro callees
    induction callees with
    | nil => intro graph; rfl
    | cons callee callees ih => intro graph; rw [List.foldl_cons, ih, size_modifySlot]
  exact hfold slot.callees (cutting.graph.modifySlot position ({ · with callees := [] }))

theorem Cutting.size_foldl {step : Cutting → Nat → Cutting}
    (hstep : ∀ cutting position, (step cutting position).graph.size = cutting.graph.size)
    (positions : List Nat) (cutting : Cutting) :
    (positions.foldl step cutting).graph.size = cutting.graph.size := by
  induction positions generalizing cutting with
  | nil => rfl
  | cons position positions ih => rw [List.foldl_cons, ih, hstep]

private theorem Cutting.size_cutSingleCall (cutting : Cutting) (position : Nat) :
    (cutting.cutSingleCall position).graph.size = cutting.graph.size := by
  unfold cutSingleCall
  split
  · rfl
  · split <;> simp

private theorem Cutting.size_cutLeastDegree (cutting : Cutting) (position : Nat) :
    (cutting.cutLeastDegree position).graph.size = cutting.graph.size := by
  unfold cutLeastDegree
  split
  · rfl
  · split <;> simp

private theorem size_breakCycles (graph : CallGraph) : graph.breakCycles.graph.size = graph.size := by
  unfold breakCycles
  have hfirst := Cutting.size_foldl Cutting.size_cutSingleCall graph.positions { graph, leastDegree := graph.size }
  simp only
  split
  · rw [Cutting.size_foldl Cutting.size_cutLeastDegree, hfirst]
  · exact hfirst

theorem size_takeWave_lt {graph rest : CallGraph} (hgraph : 0 < graph.size) {isProcessed : MethodId → Bool}
    {brokeCycles : Bool} {severed : List (MethodId × List MethodId)} {wave : Wave}
    (h : graph.takeWave isProcessed brokeCycles severed = (rest, .ok (some wave))) : rest.size < graph.size := by
  unfold takeWave at h
  split at h
  · simp at h
  · next methods next hnext =>
    split at h
    · simp at h
    · next hmethods =>
      split at h
      · simp at h
      · obtain rfl : next = rest := (Prod.mk.inj h).1
        have hsize := size_removeLeaves hnext
        have hlength : 0 < methods.length := List.length_pos_iff.2 (by simpa using hmethods)
        have hstart : ({ graph with leaves := [] } : CallGraph).size = graph.size := rfl
        omega

/-- A wave takes at least one node away. -/
theorem size_pick_lt {graph rest : CallGraph} {isProcessed : MethodId → Bool} {wave : Wave}
    (h : graph.pick isProcessed = (rest, .ok (some wave))) : rest.size < graph.size := by
  unfold pick at h
  split at h
  · simp at h
  · next hnonempty =>
    have hgraph : 0 < graph.size := Nat.pos_of_ne_zero (by simpa [isEmpty, size] using hnonempty)
    split at h
    · rw [← size_breakCycles graph] at hgraph ⊢
      exact size_takeWave_lt hgraph h
    · exact size_takeWave_lt hgraph h

/-! ### Picking everything -/

/-- Everything a repeated picking produced. -/
structure Peeling where
  waves : List Wave := []
  /-- What is left; empty unless an error stopped the picking. -/
  rest : CallGraph
  error : Option Error := none
deriving DecidableEq, Inhabited

/-- Picks waves until the graph is empty or a wave is refused. -/
def drain (graph : CallGraph) (isProcessed : MethodId → Bool) : Peeling :=
  match _h : graph.pick isProcessed with
  | (rest, .error error) => { rest, error := some error }
  | (rest, .ok none) => { rest }
  | (rest, .ok (some wave)) =>
    let peeling := rest.drain isProcessed
    { peeling with waves := wave :: peeling.waves }
termination_by graph.size
decreasing_by exact size_pick_lt _h

end CallGraph

end Bytecode
