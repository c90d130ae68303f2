import Bytecode.CallGraph.Construction
import Bytecode.CallGraph.Peeling
import Bytecode.InitField
import Bytecode.LoadElimination
/-!
# Running passes over a program

A scheduler takes the call graph of a program apart and runs its passes on the methods of each wave, so a method comes
after the methods it calls, except for calls that were cut. The methods of a wave are worked on at the same time. Each
has a worker, which takes the body out of the program, runs the passes on it, hands the affected values to a narrowing
step, puts the body back and marks the method. The steps of different workers come in any order; the scheduler is given
the order as its turns.

The first error that is reported stops the run: workers on their way go on to their end, and nothing of a later wave is
begun. What was done stays done: the methods finished keep their marks and new bodies, and a method at which a worker
failed has the body as its passes left it, but no mark.
-/

namespace Bytecode

/-- Looks again at the types of affected values. -/
abbrev Narrowing := Program → Body → List ValueId → Except Error Body

structure Scheduler where
  settings : Settings := {}
  passes : List MethodPass := []
  /-- Leaves the body as it is unless another step is given. -/
  narrowing : Narrowing := fun _ body _ => .ok body
  /-- For each wave by its number, the methods whose workers make a step, in this order. When it comes to its end, the
  workers go on one after another. -/
  turns : Nat → List MethodId := fun _ => []

/-- What a run did. -/
structure Report where
  waves : Nat := 0
  methodsProcessed : Nat := 0
  changedMethods : Nat := 0
  cycleBrokenWaves : Nat := 0
  severedCalls : Nat := 0
  events : EventLog := {}
  /-- The methods handed to the narrowing step, with their affected values. -/
  narrowed : List (MethodId × List ValueId) := []
deriving DecidableEq, Inhabited

namespace Report

def hasChanges (report : Report) : Bool :=
  0 < report.changedMethods

def text (report : Report) : String :=
  s!"{report.waves} waves, {report.methodsProcessed} methods processed, {report.changedMethods} changed" ++
    (if 0 < report.cycleBrokenWaves then
      s!", {report.severedCalls} calls severed in {report.cycleBrokenWaves} waves"
    else "")

def record (report : Report) (event : Event) : Report :=
  { report with events := report.events.record event }

end Report

/-- The state of a run: the program as changed so far, the report, and the first error that was reported. -/
structure Run where
  program : Program
  report : Report := {}
  error : Option Error := none

namespace Scheduler

/-- The scheduler with the passes of this library. -/
def standard (settings : Settings) (turns : Nat → List MethodId := fun _ => []) : Scheduler :=
  { settings, passes := [LoadElimination.pass], turns }

def passNames (scheduler : Scheduler) : List String :=
  scheduler.passes.map (·.name)

/-! ### One body -/

/-- A body on its way through the passes. -/
structure Progress where
  body : Body
  changed : Bool := false
  affected : List ValueId := []
  /-- The values that were handed to the narrowing step, with the method. -/
  narrowed : List (MethodId × List ValueId) := []
  events : List Event := []
  error : Option Error := none

/-- Runs one pass, unless an earlier one failed. A changed body is checked if the settings say so. -/
def runPass (context : PassContext) (progress : Progress) (pass : MethodPass) : Progress :=
  if progress.error.isSome || !pass.applies context progress.body then progress
  else
    match pass.run context progress.body with
    | .error error => { progress with error := some error }
    | .ok outcome =>
      let next := { progress with body := outcome.body, events := progress.events ++ outcome.events }
      if outcome.changed then
        match if context.settings.verifyBodies then outcome.body.check else .ok () with
        | .error error => { next with error := some error }
        | .ok () => { next with changed := true, affected := progress.affected ++ outcome.affected }
      else next

/-- Hands the affected values to the narrowing step, unless a pass failed. -/
def narrow (scheduler : Scheduler) (context : PassContext) (progress : Progress) : Progress :=
  let affected := ascending ValueId.index progress.affected
  if progress.error.isSome || affected.isEmpty then progress
  else
    let next := { progress with narrowed := [(progress.body.method, affected)] }
    match scheduler.narrowing context.program progress.body affected with
    | .error error => { next with error := some error }
    | .ok body => { next with body }

def runPasses (scheduler : Scheduler) (context : PassContext) (body : Body) : Progress :=
  scheduler.narrow context (scheduler.passes.foldl (runPass context) { body })

/-! ### Workers -/

/-- How far the worker of a method has come. -/
inductive Stage
  | waiting
  /-- The body is out of the program. -/
  | taken (body : Body)
  | passed (progress : Progress)
  /-- The body is back in the program. -/
  | returned (progress : Progress)
  | marked (changed : Bool)
  | finished (changed : Bool)
  | failed (error : Error)

namespace Stage

def isWaiting : Stage → Bool
  | .waiting => true
  | _ => false

/-- The method is finished and its body was changed. -/
def isChanged : Stage → Bool
  | .finished changed => changed
  | _ => false

/-- The number of steps to the end, at most. -/
def stepsLeft : Stage → Nat
  | .waiting => 5
  | .taken _ => 4
  | .passed _ => 3
  | .returned _ => 2
  | .marked _ => 1
  | .finished _ | .failed _ => 0

end Stage

/-- A run in the middle of a wave. -/
structure Crew where
  run : Run
  stage : MethodId → Stage := fun _ => .waiting

/-- The worker of a method has come to a stage and left the run like this. -/
def Crew.advance (crew : Crew) (method : MethodId) (stage : Stage) (run : Run) : Crew :=
  { run, stage := fun other => if other = method then stage else crew.stage other }

/-- One step of the worker of a method. A method without a body is only marked. -/
def step (scheduler : Scheduler) (graph : CallGraph) (crew : Crew) (method : MethodId) : Crew :=
  let run := crew.run
  match crew.stage method with
  | .waiting =>
    match run.program.body? method with
    | none => crew.advance method (.finished false) { run with program := run.program.markProcessed method }
    | some body => crew.advance method (.taken body) { run with program := run.program.removeBody method }
  | .taken body =>
    let progress := scheduler.runPasses
      { program := run.program, settings := scheduler.settings, callGraph := some graph } body
    crew.advance method (.passed progress) { run with
      report.events := run.report.events.merge ⟨progress.events⟩
      report.narrowed := run.report.narrowed ++ progress.narrowed }
  | .passed progress =>
    crew.advance method (.returned progress) { run with program := run.program.putBody method progress.body }
  | .returned progress =>
    match progress.error with
    | some error => crew.advance method (.failed error) { run with error := run.error.or (some error) }
    | none =>
      crew.advance method (.marked progress.changed) { run with program := run.program.markProcessed method }
  | .marked changed =>
    let message := if changed then "changed" else "unchanged"
    crew.advance method (.finished changed)
      { run with report := run.report.record { kind := .methodProcessed, method, message } }
  | .finished _ | .failed _ => crew

/-- The worker of a method goes on to its end. Once there is an error, a worker that waits is not begun. -/
def complete (scheduler : Scheduler) (graph : CallGraph) (crew : Crew) (method : MethodId) : Crew :=
  if crew.run.error.isSome && (crew.stage method).isWaiting then crew
  else (List.replicate (crew.stage method).stepsLeft method).foldl (scheduler.step graph) crew

/-! ### Waves -/

/-- Logs a wave and the calls that were cut for it. -/
def announceWave (report : Report) (wave : Wave) : Report :=
  let number := report.waves + 1
  let picked := { report with waves := number }.record
    { kind := .leavesPicked, message := s!"wave {number}: {wave.text}" }
  if wave.brokeCycles then
    wave.severed.foldl
      (fun report (method, callees) =>
        { report with severedCalls := report.severedCalls + callees.length }.record
          { kind := .cyclesBroken, method, message := s!"{callees.length} severed calls" })
      { picked with cycleBrokenWaves := picked.cycleBrokenWaves + 1 }
  else picked

/-- Processes the methods of a wave: the workers make steps in turn, and then each goes on to its end. -/
def processWave (scheduler : Scheduler) (graph : CallGraph) (run : Run) (wave : Wave) : Run :=
  let report := announceWave run.report wave
  let turns := (scheduler.turns report.waves).filter (· ∈ wave.methods)
  let turned := turns.foldl (scheduler.step graph) { run := { run with report } }
  let last := wave.methods.foldl (scheduler.complete graph) turned
  if last.run.error.isSome then last.run
  else { last.run with
    report.methodsProcessed := last.run.report.methodsProcessed + wave.methods.length
    report.changedMethods := last.run.report.changedMethods + wave.methods.countP fun method =>
      (last.stage method).isChanged }

/-- Processes wave after wave until the graph is empty or an error stops the run. -/
def processGraph (scheduler : Scheduler) (graph : CallGraph) (run : Run) : Run :=
  match _h : graph.pick run.program.isProcessed with
  | (_, .error error) => { run with error := some error }
  | (_, .ok none) => run
  | (rest, .ok (some wave)) =>
    let next := scheduler.processWave rest run wave
    if next.error.isSome then next else scheduler.processGraph rest next
termination_by graph.size
decreasing_by exact CallGraph.size_pick_lt _h

/-- Processes every method of the program once. -/
def run (scheduler : Scheduler) (program : Program) (mapping : MethodMapping) : Run :=
  let graph := CallGraph.build program mapping
  scheduler.processGraph graph { program, report := ({} : Report).record graph.builtEvent }

/-- Processes every method and then chooses the fields that stand for initialization checks. -/
def optimize (scheduler : Scheduler) (program : Program) (mapping : MethodMapping) : Run × InitField.InitFields :=
  let processed := scheduler.run program mapping
  if processed.error.isSome || !scheduler.settings.synthesizeInitFields then (processed, .empty)
  else
    match InitField.synthesize processed.program with
    | .error error => ({ processed with error := some error }, .empty)
    | .ok synthesis =>
      let events := processed.report.events.merge ⟨synthesis.events⟩
      ({ processed with program := synthesis.program, report := { processed.report with events } }, synthesis.chosen)

end Scheduler

end Bytecode
