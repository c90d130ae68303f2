import Bytecode.Identifier
/-!
# Events

Decisions of the scheduler and single changes of code are recorded as events in a log, in the order in which they
happen. An event may name the method it concerns, a place in that method and the pass that caused it.
-/

namespace Bytecode

/-- Kinds of events, in the order in which a summary lists them. -/
inductive EventKind where
  | fieldLoadEliminated
  | fieldLoadMaterialized
  | initClassRemoved
  | initClassFieldSynthesized
  | callGraphBuilt
  | leavesPicked
  | cyclesBroken
  | passCompleted
  | methodProcessed
  | info
  | warning
  | error
deriving DecidableEq, Inhabited

namespace EventKind

def all : List EventKind :=
  [.fieldLoadEliminated, .fieldLoadMaterialized, .initClassRemoved, .initClassFieldSynthesized, .callGraphBuilt,
   .leavesPicked, .cyclesBroken, .passCompleted, .methodProcessed, .info, .warning, .error]

def description : EventKind → String
  | .fieldLoadEliminated => "field load eliminated"
  | .fieldLoadMaterialized => "field load materialized"
  | .initClassRemoved => "init class removed"
  | .initClassFieldSynthesized => "init class field synthesized"
  | .callGraphBuilt => "call graph built"
  | .leavesPicked => "leaves picked"
  | .cyclesBroken => "cycles broken"
  | .passCompleted => "pass completed"
  | .methodProcessed => "method processed"
  | .info => "info"
  | .warning => "warning"
  | .error => "error"

/-- The event is a change of code. -/
def isTransformation : EventKind → Bool
  | .fieldLoadEliminated | .fieldLoadMaterialized | .initClassRemoved | .initClassFieldSynthesized => true
  | _ => false

/-- The event is a plain message. -/
def isDiagnostic : EventKind → Bool
  | .info | .warning | .error => true
  | _ => false

end EventKind

structure Event where
  kind : EventKind
  method : Option MethodId := none
  location : Option Nat := none
  /-- Without a message of its own an event says what its kind says. -/
  message : String := kind.description
  pass : Option String := none
deriving DecidableEq, Inhabited

def Event.text (event : Event) : String :=
  let subject := match event.method with
    | some method => method.text ++ ": "
    | none => ""
  s!"[{event.kind.description}] " ++ subject ++ event.message

/-- Events, oldest first. -/
structure EventLog where
  events : List Event := []
deriving DecidableEq, Inhabited

namespace EventLog

def size (log : EventLog) : Nat :=
  log.events.length

def isEmpty (log : EventLog) : Bool :=
  log.events.isEmpty

def record (log : EventLog) (event : Event) : EventLog :=
  ⟨log.events ++ [event]⟩

/-- The events of both logs, those of `other` last. -/
def merge (log other : EventLog) : EventLog :=
  ⟨log.events ++ other.events⟩

def count (log : EventLog) (kind : EventKind) : Nat :=
  log.events.countP (·.kind = kind)

def has (log : EventLog) (kind : EventKind) : Bool :=
  log.events.any (·.kind = kind)

def ofKind (log : EventLog) (kind : EventKind) : List Event :=
  log.events.filter (·.kind = kind)

def ofMethod (log : EventLog) (method : MethodId) : List Event :=
  log.events.filter (·.method = some method)

def transformations (log : EventLog) : List Event :=
  log.events.filter (·.kind.isTransformation)

def warnings (log : EventLog) : List Event :=
  log.ofKind .warning

/-- The recorded kinds with their numbers of events. -/
def countByKind (log : EventLog) : List (EventKind × Nat) :=
  (EventKind.all.map fun kind => (kind, log.count kind)).filter (0 < ·.2)

/-- The numbers of all events that are more than messages, on one line. -/
def summary (log : EventLog) : String :=
  let parts := (log.countByKind.filter (!·.1.isDiagnostic)).map fun (kind, count) => s!"{count} {kind.description}"
  if parts.isEmpty then "no changes" else ", ".intercalate parts

def text (log : EventLog) : String :=
  String.join (log.events.map (·.text ++ "\n"))

end EventLog

end Bytecode
