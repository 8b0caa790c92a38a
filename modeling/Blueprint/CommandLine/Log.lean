import Blueprint.Event
import Blueprint.Text.Visible

/-!
# `Blueprint/CommandLine/Log.lean` — the log

Each event is a line: its level, what happened, and the particulars as `name=value`. Keys and
paths are written bare, the two ends of a dependency in quotes. Which events are written depends
on a threshold, set by a level name in the environment or else by the verbosity.
-/

set_option autoImplicit false

namespace Blueprint

/-- Marks a message as coming from this program. -/
def fromProgram (message : String) : String := "specgraph: " ++ message

/-- Which events are written: those at the level and the more serious ones. -/
inductive Level where
  | off
  | error
  | warning
  | information
  | debugging
  | tracing
deriving DecidableEq, Repr

namespace Level

/-- A level by its name, in any case, or by its number. -/
def named? (name : String) : Option Level :=
  match String.ofList (name.toList.map Char.toLower) with
  | "off" | "0" => some .off
  | "error" | "1" => some .error
  | "warn" | "2" => some .warning
  | "info" | "3" => some .information
  | "debug" | "4" => some .debugging
  | "trace" | "5" => some .tracing
  | _ => none

/-- The level of a setting in the environment. An empty one leaves errors only; a name that is no
level silences everything. -/
def ofVariable (setting : String) : Level :=
  if setting = "" then .error else (named? setting).getD .off

/-- The level of a verbosity. -/
def ofVerbosity : Nat → Level
  | 0 => .warning
  | 1 => .information
  | _ => .debugging

/-- The level that counts: the environment wins over the verbosity. -/
def threshold (setting? : Option String) (verbosity : Nat) : Level :=
  match setting? with
  | some setting => ofVariable setting
  | none => ofVerbosity verbosity

/-- Whether events of a severity are written. -/
def shows : Level → Severity → Bool
  | .off, _ => false
  | .error, _ => false
  | .warning, severity => severity == .warning
  | .information, severity => severity == .warning
  | .debugging, _ => true
  | .tracing, _ => true

end Level

/-- How a severity is written. -/
def Severity.label : Severity → String
  | .warning => "WARN"
  | .debugging => "DEBUG"

namespace Event

/-- A number in decimal. -/
def decimal (n : Nat) : String := String.ofList (Nat.toDigits 10 n)

/-- What happened, and the particulars. -/
def description : Event → String
  | .component key path => "module node key=" ++ key ++ " path=" ++ path.text
  | .argument dependency dependent slot =>
    "edge dependency=" ++ Text.visible dependency ++ " dependent=" ++ Text.visible dependent ++
      " slot=" ++ slot.text
  | .result dependency dependent =>
    "edge dependency=" ++ Text.visible dependency ++ " dependent=" ++ Text.visible dependent
  | .entry key => "entry point key=" ++ key
  | .fieldName field key => "field name resolved field=" ++ field ++ " key=" ++ key
  | .extracted nodes edges =>
    "extraction finished nodes=" ++ decimal nodes ++ " edges=" ++ decimal edges
  | .leftOut keys =>
    Text.disarm (fromProgram ("omitting " ++ decimal keys.length ++
      " node(s) caught in a dependency cycle: " ++ String.intercalate ", " keys))
  | .ordered keys => "emission order order=" ++ String.intercalate ", " keys

/-- A line of the log. -/
def line (event : Event) : String := event.severity.label ++ " " ++ event.description

end Event

/-- The lines of the events that a level shows. -/
def logLines (level : Level) (events : List Event) : List String :=
  (events.filter fun event => level.shows event.severity).map Event.line

end Blueprint
