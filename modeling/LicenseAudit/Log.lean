import LicenseAudit.Text.Indent

/-!
# Log lines

A log line has a level, says which part of the program speaks, and has a message. A level shows
itself and the more severe ones; the two most talkative settings name the part too.
-/

namespace LicenseAudit

/-- How much is logged. -/
inductive LogLevel where
  | none
  | error
  | warn
  | info
  | debug
  | trace
  deriving DecidableEq, Repr

namespace LogLevel

/-- The levels in order, the most silent one first. -/
def rank : LogLevel → Nat
  | none => 0
  | error => 1
  | warn => 2
  | info => 3
  | debug => 4
  | trace => 5

/-- The level in a line, in five columns. -/
def label : LogLevel → String
  | none => ""
  | error => "ERROR"
  | warn => "WARN "
  | info => "INFO "
  | debug => "DEBUG"
  | trace => "TRACE"

/-- The level of a name. -/
def ofName? (name : String) : Option LogLevel :=
  if name = "none" then some none
  else if name = "error" then some error
  else if name = "warn" then some warn
  else if name = "info" then some info
  else if name = "debug" then some debug
  else if name = "trace" then some trace
  else Option.none

end LogLevel

/-- The part of the program that speaks. -/
inductive LogSource where
  | expressions
  | verdicts
  | decisionFile
  | checkCommand
  | decideCommand
  deriving DecidableEq, Repr

/-- How the part is named in a line. -/
def LogSource.name : LogSource → String
  | expressions => "license_checker::boolexpr"
  | verdicts => "license_checker::checker"
  | decisionFile => "license_checker::checker::storage"
  | checkCommand => "license_checker::commands::check"
  | decideCommand => "license_checker::commands::decide"

/-- One entry of a log. -/
structure LogEntry where
  level : LogLevel
  source : LogSource
  message : String
  deriving DecidableEq, Repr

namespace LogEntry

/-- The line of an entry at a setting. -/
def line (setting : LogLevel) (e : LogEntry) : String :=
  let source := if LogLevel.debug.rank ≤ setting.rank then " " ++ e.source.name else ""
  "[" ++ e.level.label ++ source ++ "] " ++ Text.indented 4 e.message ++ "\n"

/-- An entry is shown at a setting. -/
def isShown (setting : LogLevel) (e : LogEntry) : Bool :=
  0 < setting.rank && e.level.rank ≤ setting.rank

/-- The lines of a log at a setting. -/
def lines (setting : LogLevel) (log : List LogEntry) : String :=
  String.join ((log.filter (isShown setting)).map (line setting))

end LogEntry

end LicenseAudit
