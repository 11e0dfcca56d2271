import MayTaint.Audit
import MayTaint.LocalSet

/-!
The log: what a run has to tell, as events in the order in which they happen. The text of the log is
a view of the events that are important enough, and the history of a run a view of its visits.
-/

namespace MayTaint

namespace Log

/-- The importance of a message; a message may also be of no level at all. -/
inductive Level where
  | notset
  | debug
  | info
  | warning
  | error
  | critical
  deriving DecidableEq, Repr, Inhabited

namespace Level

def all : List Level := [notset, debug, info, warning, error, critical]

def name : Level → String
  | notset => "NOTSET"
  | debug => "DEBUG"
  | info => "INFO"
  | warning => "WARNING"
  | error => "ERROR"
  | critical => "CRITICAL"

def severity : Level → Nat
  | notset => 0
  | debug => 10
  | info => 20
  | warning => 30
  | error => 40
  | critical => 50

/-- The level of a name. Two levels have a second name. -/
def ofName? : String → Option Level
  | "WARN" => some warning
  | "FATAL" => some critical
  | name => all.find? fun level => level.name == name

/-- The least important level that is written at a verbosity: warnings at zero or below, the
summary of each body at one, every visit from two on. -/
def ofVerbosity (verbosity : Int) : Level :=
  if verbosity ≤ 0 then warning else if verbosity = 1 then info else debug

end Level

def line (level : Level) (message : String) : String :=
  "taintflow: " ++ level.name ++ ": " ++ message ++ "\n"

/-- A logger. Until it is configured it has no threshold and writes nothing. -/
structure Logger where
  threshold : Option Level := none

namespace Logger

def root : String := "taintflow"

def configure (verbosity : Int) : Logger :=
  ⟨some (Level.ofVerbosity verbosity)⟩

def levelName (logger : Logger) : String :=
  (logger.threshold.getD .notset).name

/-- One handler is silent and always there, the other one writes. -/
def handlerCount (logger : Logger) : Nat :=
  if logger.threshold.isSome then 2 else 1

def covers (name : String) : Bool :=
  name == root || name.startsWith (root ++ ".")

def emit (logger : Logger) (name : String) (level : Level) (message : String) : String :=
  match logger.threshold with
  | some threshold =>
    if covers name && threshold.severity ≤ level.severity then line level message else ""
  | none => ""

end Logger

end Log

/-- One visit of a block: the states before and after it, and whether the latter is news. -/
structure Visit where
  block : BlockId
  entry : LocalSet
  exit : LocalSet
  changed : Bool
  deriving DecidableEq

inductive Event where
  | unsupported (body : String) (construct : Construct)
  | visited (body : String) (visit : Visit)
  | settled (body analysis : String) (iterations reached blocks : Nat)
  | unusedSeeds (names : List String)

namespace Event

def level : Event → Log.Level
  | unsupported _ _ => .warning
  | visited _ _ => .debug
  | settled _ _ _ _ _ => .info
  | unusedSeeds _ => .warning

def message : Event → String
  | unsupported body construct => body ++ ": " ++ construct.text
  | visited body v =>
    body ++ ": bb" ++ toString v.block ++ " entry=" ++ v.entry.text ++ " exit=" ++ v.exit.text
      ++ (if v.changed then " (changed)" else "")
  | settled body analysis iterations reached blocks =>
    body ++ ": " ++ analysis ++ " reached a fixed point after " ++ toString iterations
      ++ " iterations (" ++ toString reached ++ " of " ++ toString blocks ++ " blocks visited)"
  | unusedSeeds names => "seeds given for unknown bodies: " ++ String.intercalate ", " names

def visit? : Event → Option Visit
  | visited _ v => some v
  | _ => none

end Event

namespace Log

def text (verbosity : Int) (events : List Event) : String :=
  let logger := Logger.configure verbosity
  String.join (events.map fun e => logger.emit Logger.root e.level e.message)

def warnings (events : List Event) : List Event :=
  events.filter fun e => e.level == .warning

def visits (events : List Event) : List Visit :=
  events.filterMap Event.visit?

end Log

end MayTaint
