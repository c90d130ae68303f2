import Bytecode.Access
import Bytecode.Block
import Bytecode.Body
import Bytecode.Body.Builder
import Bytecode.Body.Defect
import Bytecode.Body.Printer
import Bytecode.Body.TrivialPhi
import Bytecode.CallGraph
import Bytecode.CallGraph.Construction
import Bytecode.CallGraph.Peeling
import Bytecode.Definition
import Bytecode.Error
import Bytecode.Event
import Bytecode.Graph.Dominators
import Bytecode.Graph.Search
import Bytecode.Graph.Traversal
import Bytecode.Identifier
import Bytecode.InitField
import Bytecode.KnownFields
import Bytecode.LoadElimination
import Bytecode.LoadElimination.Facts
import Bytecode.Operation
import Bytecode.Pass
import Bytecode.Program
import Bytecode.Program.Hierarchy
import Bytecode.Program.Initialization
import Bytecode.Program.Resolution
import Bytecode.Proofs.Body.AliasChains
import Bytecode.Proofs.Body.Building
import Bytecode.Proofs.Body.Composition
import Bytecode.Proofs.Body.Rewriting
import Bytecode.Proofs.Body.StrictSSA
import Bytecode.Proofs.Body.Substitution
import Bytecode.Proofs.Body.TrivialPhi
import Bytecode.Proofs.Body.WellFormed
import Bytecode.Proofs.CallGraph.Balance
import Bytecode.Proofs.CallGraph.Construction
import Bytecode.Proofs.CallGraph.CycleBreaking
import Bytecode.Proofs.CallGraph.Dispatch
import Bytecode.Proofs.CallGraph.Exactness
import Bytecode.Proofs.CallGraph.Order
import Bytecode.Proofs.CallGraph.Picking
import Bytecode.Proofs.CallGraph.Slots
import Bytecode.Proofs.CallGraph.Waves
import Bytecode.Proofs.Execution.Aliases
import Bytecode.Proofs.Execution.Faithful
import Bytecode.Proofs.Execution.Guard
import Bytecode.Proofs.Execution.Machine
import Bytecode.Proofs.Execution.Passing
import Bytecode.Proofs.Execution.Settled
import Bytecode.Proofs.Execution.Simulation
import Bytecode.Proofs.Graph.DepthFirst
import Bytecode.Proofs.Graph.Dominance
import Bytecode.Proofs.Graph.DominatorIteration
import Bytecode.Proofs.Graph.DominatorTree
import Bytecode.Proofs.Graph.ImmediateDominators
import Bytecode.Proofs.Graph.Postorder
import Bytecode.Proofs.Graph.Search
import Bytecode.Proofs.InitField.Requirements
import Bytecode.Proofs.InitField.Stability
import Bytecode.Proofs.InitField.Synthesis
import Bytecode.Proofs.LoadElimination.Affected
import Bytecode.Proofs.LoadElimination.Alone
import Bytecode.Proofs.LoadElimination.Course
import Bytecode.Proofs.LoadElimination.Elimination
import Bytecode.Proofs.LoadElimination.Equivalence
import Bytecode.Proofs.LoadElimination.FactMap
import Bytecode.Proofs.LoadElimination.Handlers
import Bytecode.Proofs.LoadElimination.History
import Bytecode.Proofs.LoadElimination.Holds
import Bytecode.Proofs.LoadElimination.Idempotence
import Bytecode.Proofs.LoadElimination.Initializers
import Bytecode.Proofs.LoadElimination.KnownFields
import Bytecode.Proofs.LoadElimination.Mentions
import Bytecode.Proofs.LoadElimination.Preservation
import Bytecode.Proofs.LoadElimination.Redundant
import Bytecode.Proofs.LoadElimination.RepeatedRead
import Bytecode.Proofs.LoadElimination.Retraction
import Bytecode.Proofs.LoadElimination.Soundness
import Bytecode.Proofs.LoadElimination.Sweep
import Bytecode.Proofs.LoadElimination.Tracking
import Bytecode.Proofs.LoadElimination.Transfer
import Bytecode.Proofs.LoadElimination.VisitOrder
import Bytecode.Proofs.LoadElimination.WellFormed
import Bytecode.Proofs.Program.Coherence
import Bytecode.Proofs.Program.Dispatch
import Bytecode.Proofs.Program.FieldResolution
import Bytecode.Proofs.Program.Fields
import Bytecode.Proofs.Program.Hierarchy
import Bytecode.Proofs.Program.Initialization
import Bytecode.Proofs.Program.MethodResolution
import Bytecode.Proofs.Program.Tables
import Bytecode.Proofs.Schedule.Crew
import Bytecode.Proofs.Schedule.Pointwise
import Bytecode.Proofs.Schedule.Stopping
import Bytecode.Proofs.Schedule.Worker
import Bytecode.Proofs.Text.Label
import Bytecode.Schedule
import Bytecode.Settings
import Bytecode.Table
import Bytecode.Text.Decimal
import Bytecode.Text.Escape
import Bytecode.Text.Invisible
