import Bytecode.LoadElimination.Facts
/-!
# Running a body

What a body does is given by a run over its blocks: an environment holds the values computed so far, a memory the
fields of objects and classes, and a world everything else. A machine answers for all that the body does not determine:
arguments, arithmetic, arrays, which way a branch goes, which handler catches an exception and what code outside the body
does. No assumption is made about it, so a statement about all machines covers every meaning of those operations.

Code that is not known may change any field but a final one that has its value; the initializer of a class does so for
static fields only. An initializer with a summary sets the fields that the summary names. A run is faulty if it reads a
value that has not been computed or leaves its body. On a guarded machine it is also faulty if it gives a final field a
value again, or if a summary copies a static field that is not final or whose class is not initialized.
-/

namespace Bytecode

def Program.isFinalField (program : Program) (field : FieldId) : Bool :=
  (program.field? field).any (·.isFinal)

/-- A field with one value that everybody sees: it is final and can be tracked. -/
def Program.isConstantField (program : Program) (definition : FieldDef) : Bool :=
  definition.isFinal && program.mayPropagate definition

/-- The operation with its operands' names taken away. -/
def Operation.unnamed (operation : Operation) : Operation :=
  operation.mapOperands fun _ => ⟨0⟩

namespace Execution

open LoadElimination (Scope)

/-- The fields of objects and classes, the classes that are initialized and the final fields that have their value. -/
structure Memory (Datum Address : Type) where
  instanceField : Address → FieldId → Datum
  staticField : FieldId → Datum
  initialized : TypeId → Bool
  settledInstance : Address → FieldId → Bool
  settledStatic : FieldId → Bool

/-- What a machine says about an operation: whether it throws, its result or exception, and how it leaves the rest. -/
structure Response (Datum Address World : Type) where
  thrown : Bool
  datum : Datum
  memory : Memory Datum Address
  world : World

structure Machine (Datum Address World : Type) where
  argument : Nat → Datum
  number : Int → Datum
  null : Datum
  string : String → Datum
  /-- The object that a datum refers to. -/
  address? : Datum → Option Address
  respond : Operation → List Datum → Memory Datum Address → World → Response Datum Address World
  /-- The successor that a branch or switch takes. -/
  choose : Operation → List Datum → World → Nat
  /-- The handler that catches an exception. -/
  catcher? : List Handler → Datum → World → Option Nat
  /-- Whether it is a fault to give a final field a value again or to copy what is not a constant. -/
  guarded : Bool

/-- The machine with its guard up. -/
def Machine.guard {Datum Address World : Type} (machine : Machine Datum Address World) : Machine Datum Address World :=
  { machine with guarded := true }

/-- The fields that no second value may be written to. -/
def Machine.guards {Datum Address World : Type} (machine : Machine Datum Address World) (program : Program) :
    FieldId → Bool :=
  fun field => machine.guarded && program.isFinalField field

/-- Everything but the environment. -/
structure Situation (Datum Address World : Type) where
  memory : Memory Datum Address
  world : World
  /-- The exception caught last. -/
  caught : Datum

inductive Outcome (Datum Address World : Type) where
  | done (result : Datum) (situation : Situation Datum Address World)
  | jump (choice : Nat)
  | returned (result : Option Datum)
  | raised (exception : Datum) (situation : Situation Datum Address World)
  | faulty

variable {Datum Address World : Type} [DecidableEq Address]

namespace Memory

/-- The memory after code that is not known and would leave `other`. -/
def disturbedBy (isFinal : FieldId → Bool) (memory other : Memory Datum Address) : Memory Datum Address where
  instanceField address field :=
    if isFinal field && memory.settledInstance address field then memory.instanceField address field
    else other.instanceField address field
  staticField field :=
    if isFinal field && memory.settledStatic field then memory.staticField field else other.staticField field
  initialized type := memory.initialized type || other.initialized type
  settledInstance address field := memory.settledInstance address field || other.settledInstance address field
  settledStatic field := memory.settledStatic field || other.settledStatic field

/-- The memory after a class initializer that would leave `other`: instance fields stay. -/
def initializedBy (isFinal : FieldId → Bool) (memory other : Memory Datum Address) : Memory Datum Address :=
  { memory.disturbedBy isFinal other with
    instanceField := memory.instanceField
    settledInstance := memory.settledInstance }

def markInitialized (memory : Memory Datum Address) (type : TypeId) : Memory Datum Address :=
  { memory with initialized := fun other => other = type || memory.initialized other }

/-- Writes an instance field, unless it is guarded and has its value. -/
def putInstance? (guards : FieldId → Bool) (memory : Memory Datum Address) (address : Address) (field : FieldId)
    (datum : Datum) : Option (Memory Datum Address) :=
  if guards field && memory.settledInstance address field then none
  else some
    { memory with
      instanceField := fun other member =>
        if other = address ∧ member = field then datum else memory.instanceField other member
      settledInstance := fun other member =>
        (other = address ∧ member = field) || memory.settledInstance other member }

/-- Writes a static field, unless it is guarded and has its value. -/
def putStatic? (guards : FieldId → Bool) (memory : Memory Datum Address) (field : FieldId) (datum : Datum) :
    Option (Memory Datum Address) :=
  if guards field && memory.settledStatic field then none
  else some
    { memory with
      staticField := fun member => if member = field then datum else memory.staticField member
      settledStatic := fun member => member = field || memory.settledStatic member }

def settleStatic (memory : Memory Datum Address) (field : FieldId) : Memory Datum Address :=
  { memory with settledStatic := fun member => member = field || memory.settledStatic member }

end Memory

section Operations

variable (machine : Machine Datum Address World) (scope : Scope) (response : Response Datum Address World)
  (situation : Situation Datum Address World)

/-- An operation that leaves the memory alone. -/
def quiet (canThrow : Bool) : Outcome Datum Address World :=
  let later := { situation with world := response.world }
  if canThrow && response.thrown then .raised response.datum later else .done response.datum later

/-- An operation that runs code that is not known. -/
def unknownCode : Outcome Datum Address World :=
  let later : Situation Datum Address World :=
    { situation with
      memory := situation.memory.disturbedBy scope.program.isFinalField response.memory
      world := response.world }
  if response.thrown then .raised response.datum later else .done response.datum later

/-- Goes on once a class is initialized, running its initializer first if need be. -/
def initializing (type : TypeId) (next : Situation Datum Address World → Outcome Datum Address World) :
    Outcome Datum Address World :=
  if situation.memory.initialized type then next situation
  else
    let memory := situation.memory.initializedBy scope.program.isFinalField response.memory
    if response.thrown then .raised response.datum { situation with memory, world := response.world }
    else next { situation with memory := memory.markInitialized type, world := response.world }

/-- Goes on with the object that a datum refers to. -/
def dereferencing (datum : Option Datum) (next : Address → Outcome Datum Address World) :
    Outcome Datum Address World :=
  match datum with
  | none => .faulty
  | some datum =>
    match machine.address? datum with
    | some address => next address
    | none => .raised response.datum { situation with world := response.world }

def storing (memory : Option (Memory Datum Address)) : Outcome Datum Address World :=
  match memory with
  | some memory => .done machine.null { situation with memory }
  | none => .faulty

/-- What an initializer with a summary stores in one field. A static field that it copies has its value from then on. -/
def initialDatum? (data : List Datum) (memory : Memory Datum Address) (unspecified : Datum) :
    FieldInitialization → Option (Datum × Memory Datum Address)
  | .argument index => some ((data[index]?).getD unspecified, memory)
  | .constant (.number value) => some (machine.number value, memory)
  | .constant .null => some (machine.null, memory)
  | .constant (.string text) => some (machine.string text, memory)
  | .constant (.staticField reference) =>
    match (scope.program.resolveField? reference).filter (·.isStatic) with
    | none => some (unspecified, memory)
    | some definition =>
      if machine.guarded && !(scope.program.isConstantField definition && memory.initialized definition.holder) then none
      else some (memory.staticField definition.id, memory.settleStatic definition.id)

/-- One field set by an initializer on its receiver. -/
def initializeField (address : Address) (data : List Datum) (memory : Memory Datum Address)
    (entry : FieldId × FieldInitialization) : Option (Memory Datum Address) := do
  let (datum, memory) ← initialDatum? machine scope data memory (response.memory.instanceField address entry.1) entry.2
  memory.putInstance? (machine.guards scope.program) address entry.1 datum

/-- An initializer with a summary. -/
def construct (summary : InitializerSummary) (data : List Datum) : Outcome Datum Address World :=
  dereferencing machine response situation data.head? fun address =>
    let disturbed := situation.memory.disturbedBy scope.program.isFinalField response.memory
    if response.thrown then .raised response.datum { situation with memory := disturbed, world := response.world }
    else
      let start := if summary.hasOtherEffects then disturbed else situation.memory
      match summary.fields.foldlM (initializeField machine scope response address data) start with
      | some memory => .done response.datum { situation with memory, world := response.world }
      | none => .faulty

/-- The outcome of an operation on its operands' data, given the machine's response and its choice among successors. -/
def outcome (choice : Nat) (data : List Datum) : Operation → Outcome Datum Address World
  | .argument _ index => .done (machine.argument index) situation
  | .assume .. =>
    match data.head? with
    | some source => .done source situation
    | none => .faulty
  | .constNumber _ value => .done (machine.number value) situation
  | .constNull _ | .debugLocalRead => .done machine.null situation
  | .constString _ text => .done (machine.string text) situation
  | .moveException _ => .done situation.caught situation
  | .goto => .jump 0
  | .branch .. | .switch .. => .jump choice
  | .return _ => .returned data.head?
  | .throw _ =>
    match data.head? with
    | some exception => .raised exception situation
    | none => .faulty
  | .instanceGet _ _ field =>
    match scope.trackedField? field false with
    | none => unknownCode scope response situation
    | some definition => dereferencing machine response situation data.head? fun address =>
      .done (situation.memory.instanceField address definition.id) situation
  | .instancePut _ field _ =>
    match scope.trackedField? field false with
    | none => unknownCode scope response situation
    | some definition => dereferencing machine response situation data.head? fun address =>
      storing machine situation (data[1]?.bind
        (situation.memory.putInstance? (machine.guards scope.program) address definition.id))
  | .staticGet _ field =>
    match scope.trackedField? field true with
    | none => unknownCode scope response situation
    | some definition => initializing scope response situation definition.holder fun later =>
      .done (later.memory.staticField definition.id) later
  | .staticPut field _ =>
    match scope.trackedField? field true with
    | none => unknownCode scope response situation
    | some definition => initializing scope response situation definition.holder fun later =>
      storing machine later (data.head?.bind (later.memory.putStatic? (machine.guards scope.program) definition.id))
  | .initClass _ type => initializing scope response situation type fun later => .done machine.null later
  | .newInstance _ type =>
    let memory :=
      if !situation.memory.initialized type && scope.program.initializationHasEffects type scope.holder then
        situation.memory.disturbedBy scope.program.isFinalField response.memory
      else situation.memory
    if response.thrown then .raised response.datum { situation with memory, world := response.world }
    else .done response.datum { situation with memory := memory.markInitialized type, world := response.world }
  | .invoke _ kind method _ =>
    match scope.initializerSummary? kind method with
    | some summary =>
      if data.isEmpty then unknownCode scope response situation
      else construct machine scope response situation summary data
    | none => unknownCode scope response situation
  | .invokeCustom .. | .monitorEnter _ => unknownCode scope response situation
  | .binary _ kind _ _ => quiet response situation kind.canThrow
  | .instanceOf .. | .unary .. => quiet response situation false
  | .arrayGet .. | .arrayLength .. | .arrayPut .. | .checkCast .. | .constClass .. | .monitorExit _ | .newArray ..
  | .newArrayFilled .. => quiet response situation true

end Operations

/-! ### Instructions -/

structure State (Datum Address World : Type) where
  env : ValueId → Option Datum
  situation : Situation Datum Address World

/-- The environment once an operation that may define a value has its result. -/
def assign (env : ValueId → Option Datum) (dest : Option ValueId) (result : Datum) : ValueId → Option Datum :=
  fun value => if some value = dest then some result else env value

theorem assign_of_ne {env : ValueId → Option Datum} {dest : Option ValueId} {result : Datum} {value : ValueId}
    (h : dest ≠ some value) : assign env dest result value = env value :=
  if_neg fun heq => h heq.symm

theorem assign_self (env : ValueId → Option Datum) (value : ValueId) (result : Datum) :
    assign env (some value) result value = some result :=
  if_pos rfl

inductive Effect (Datum Address World : Type) where
  | next (state : State Datum Address World)
  | jump (choice : Nat) (state : State Datum Address World)
  | returned (result : Option Datum) (state : State Datum Address World)
  | raised (exception : Datum) (state : State Datum Address World)
  | faulty

section Instructions

variable (machine : Machine Datum Address World) (scope : Scope)

def perform (operation : Operation) (data : List Datum) (situation : Situation Datum Address World) :
    Outcome Datum Address World :=
  outcome machine scope (machine.respond operation.unnamed data situation.memory situation.world) situation
    (machine.choose operation.unnamed data situation.world) data operation

/-- An operation is performed on what its operands hold. -/
def execute (operation : Operation) (state : State Datum Address World) : Effect Datum Address World :=
  match operation.operands.mapM state.env with
  | none => .faulty
  | some data =>
    match perform machine scope operation data state.situation with
    | .done result situation => .next { env := assign state.env operation.dest? result, situation }
    | .jump choice => .jump choice state
    | .returned result => .returned result state
    | .raised exception situation => .raised exception { state with situation }
    | .faulty => .faulty

omit [DecidableEq Address] in
/-- What operands hold, one by one. -/
theorem map_eq_of_mapM {α : Type} {read : α → Option Datum} {operands : List α} {data : List Datum}
    (h : operands.mapM read = some data) : operands.map read = data.map some := by
  induction operands generalizing data with
  | nil =>
    obtain rfl := Option.some.inj h
    rfl
  | cons operand operands ih =>
    rw [List.mapM_cons] at h
    obtain ⟨datum, hdatum, h⟩ := Option.bind_eq_some_iff.1 h
    obtain ⟨rest, hrest, h⟩ := Option.bind_eq_some_iff.1 h
    obtain rfl := Option.some.inj h
    rw [List.map_cons, List.map_cons, hdatum, ih hrest]

omit [DecidableEq Address] in
/-- An operand holds the datum at its place. -/
theorem env_of_mapM {env : ValueId → Option Datum} {operands : List ValueId} {data : List Datum}
    (h : operands.mapM env = some data) {index : Nat} {operand : ValueId} {datum : Datum}
    (hoperand : operands[index]? = some operand) (hdatum : data[index]? = some datum) :
    env operand = some datum := by
  have hget := congrArg (·[index]?) (map_eq_of_mapM h)
  simpa [hoperand, hdatum] using hget

omit [DecidableEq Address] in
theorem env_of_head {env : ValueId → Option Datum} {operand : ValueId} {rest : List ValueId} {data : List Datum}
    {datum : Datum} (h : (operand :: rest).mapM env = some data) (hdatum : data.head? = some datum) : env operand = some datum := by
  rw [List.head?_eq_getElem?] at hdatum
  exact env_of_mapM h rfl hdatum

/-- Instructions one after another, up to the first that does not go on to the next one. -/
def executeAll : List Instruction → State Datum Address World → Effect Datum Address World
  | [], state => .next state
  | instruction :: rest, state =>
    match execute machine scope instruction.operation state with
    | .next later => executeAll rest later
    | effect => effect

end Instructions

/-! ### Blocks -/

inductive Ending (Datum : Type) where
  | returned (result : Option Datum)
  | thrown (exception : Datum)

inductive Status (Datum Address World : Type) where
  | running (block : Nat) (state : State Datum Address World)
  | finished (ending : Ending Datum) (situation : Situation Datum Address World)
  | faulty

/-- The environment at the start of a block: its phis have selected, and its instructions have yet to be executed. -/
def arrive (body : Body) (source target : Nat) (block : Block) (env : ValueId → Option Datum) :
    ValueId → Option Datum :=
  fun value =>
    match block.phis.find? (·.dest = value) with
    | some phi => (((body.predecessors target).idxOf? source).bind (phi.operands[·]?)).bind env
    | none => if value ∈ block.instructions.filterMap (·.operation.dest?) then none else env value

/-- Goes from one block to another. -/
def goTo (body : Body) (source : Nat) (target : Option Nat) (state : State Datum Address World) :
    Status Datum Address World :=
  match target with
  | none => .faulty
  | some target =>
    match body.block? target with
    | none => .faulty
    | some block => .running target { state with env := arrive body source target block state.env }

/-- Where the effect of a block's instructions leads. -/
def leave (machine : Machine Datum Address World) (body : Body) (position : Nat) (block : Block) :
    Effect Datum Address World → Status Datum Address World
  | .jump choice state => goTo body position block.successors[choice]? state
  | .returned result state => .finished (.returned result) state.situation
  | .raised exception state =>
    match machine.catcher? block.handlers exception state.situation.world with
    | none => .finished (.thrown exception) state.situation
    | some index =>
      goTo body position (block.handlers[index]?.map (·.target))
        { state with situation := { state.situation with caught := exception } }
  | .next _ | .faulty => .faulty

section Runs

variable (machine : Machine Datum Address World) (scope : Scope) (body : Body)

/-- Runs one block. -/
def step : Status Datum Address World → Status Datum Address World
  | .running position state =>
    match body.block? position with
    | none => .faulty
    | some block => leave machine body position block (executeAll machine scope block.instructions state)
  | status => status

/-- Runs a number of blocks, from the entry on. -/
def run (start : Situation Datum Address World) : Nat → Status Datum Address World
  | 0 => .running 0 { env := fun _ => none, situation := start }
  | count + 1 => step machine scope body (run start count)

end Runs

/-- What can be seen of a run: where it is, or how it ended, and the situation, but not the environment. -/
inductive Observation (Datum Address World : Type) where
  | running (block : Nat) (situation : Situation Datum Address World)
  | finished (ending : Ending Datum) (situation : Situation Datum Address World)
  | faulty

def Status.observe : Status Datum Address World → Observation Datum Address World
  | .running block state => .running block state.situation
  | .finished ending situation => .finished ending situation
  | .faulty => .faulty

end Execution

end Bytecode
