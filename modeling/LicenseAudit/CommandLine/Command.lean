import LicenseAudit.CommandLine.Words
import LicenseAudit.Log
import LicenseAudit.Report.Basic

/-!
# Commands

What a command line asks for: settings that every command has, and a command with its own options.
The settings may stand before the command or behind it, where they have the last word.
-/

namespace LicenseAudit

/-- How a report is shown. -/
inductive OutputFormat where
  | table
  | json
  deriving DecidableEq, Repr

/-- The options of a check. -/
structure CheckOptions where
  licenses : Option String
  format : Option OutputFormat
  output : Option String
  onUnknown : Option UnknownPolicy
  interactive : Option Bool
  showAll : Bool
  exitZero : Bool
  deriving DecidableEq, Repr

/-- What is to be done. -/
inductive Command where
  | check (options : CheckOptions)
  | eval (expression : String) (allow deny : List String)
  | decide (allowed : Bool) (licenses : List String)
  | config (showIt validate : Bool)
  deriving DecidableEq, Repr

/-- The settings of every command. -/
structure Settings where
  config : Option String
  verbose : Bool
  quiet : Bool
  logLevel : Option LogLevel
  deriving DecidableEq, Repr

/-- How much is logged: as asked for, or else more or less than usual. -/
def Settings.level (s : Settings) : LogLevel :=
  match s.logLevel with
  | some level => level
  | none => if s.verbose then .debug else if s.quiet then .error else .warn

/-- What a command line asks for. -/
inductive Request where
  | run (settings : Settings) (command : Command)
  | version
  | help
  | misuse
  deriving DecidableEq, Repr

namespace CommandLine

/-- A flag with a short name. -/
def flag (long : String) (short : Option Char) : Switch :=
  ⟨long, short, false, false, fun _ => true⟩

/-- An option with a path, which is not empty. -/
def pathOption (long : String) (short : Option Char) : Switch :=
  ⟨long, short, true, false, fun v => v ≠ ""⟩

/-- An option with one of several values. -/
def choiceOption (long : String) (short : Option Char) (choices : List String) : Switch :=
  ⟨long, short, true, false, choices.contains⟩

/-- An option with any text, which may be repeated. -/
def listOption (long : String) : Switch := ⟨long, none, true, true, fun _ => true⟩

/-- The options of every command. -/
def sharedOptions : List Switch :=
  [pathOption "config" none, flag "verbose" (some 'v'), flag "quiet" (some 'q'),
    choiceOption "log-level" none ["none", "error", "warn", "info", "debug", "trace"],
    flag "help" (some 'h')]

/-- The words before a command. -/
def mainGrammar : Grammar :=
  ⟨sharedOptions ++ [flag "version" (some 'V')],
    ["check", "eval", "allow", "deny", "config", "help"], none⟩

/-- The options of a check. -/
def checkOptions : List Switch :=
  [pathOption "licenses" (some 'l'), choiceOption "format" (some 'f') ["table", "json"],
    pathOption "output" (some 'o'), choiceOption "on-unknown" none ["report", "deny"],
    choiceOption "interactive" none ["true", "false"], flag "all" none, flag "exit-zero" none]

/-- The words behind a command. A limit of 0 stands for any number of operands. -/
def grammarOf (command : String) : Grammar :=
  if command = "check" then ⟨checkOptions ++ sharedOptions, [], none⟩
  else if command = "eval" then
    ⟨[listOption "allow", listOption "deny"] ++ sharedOptions, [], some 1⟩
  else if command = "config" then
    ⟨[flag "show" none, flag "validate" none] ++ sharedOptions, [], none⟩
  else ⟨sharedOptions, [], some 0⟩

/-- The format of a name. -/
def formatOf? (name : String) : Option OutputFormat :=
  if name = "table" then some .table else if name = "json" then some .json else none

/-- The command of its name and words. Operands that it needs have to be there. -/
def commandOf? (name : String) (f : Found) : Option Command :=
  if name = "check" then
    some (.check {
      licenses := f.value? "licenses"
      format := (f.value? "format").bind formatOf?
      output := f.value? "output"
      onUnknown := (f.value? "on-unknown").bind UnknownPolicy.ofName?
      interactive := (f.value? "interactive").map (· = "true")
      showAll := f.has "all"
      exitZero := f.has "exit-zero" })
  else if name = "eval" then
    f.operands.head?.map fun e => .eval e (f.values "allow") (f.values "deny")
  else if name = "config" then some (.config (f.has "show") (f.has "validate"))
  else if f.operands = [] then none
  else some (.decide (name = "allow") f.operands)

/-- The settings of the words before a command and behind it. -/
def settingsOf (before behind : Found) : Settings where
  config := (behind.value? "config").or (before.value? "config")
  verbose := before.has "verbose" || behind.has "verbose"
  quiet := before.has "quiet" || behind.has "quiet"
  logLevel :=
    ((behind.value? "log-level").or (before.value? "log-level")).bind LogLevel.ofName?

/-- An explanation is asked for by a command of its own, whose operand is a command. -/
def helpRequest (words : List String) : Request :=
  match words with
  | [] => .help
  | [name] => if mainGrammar.commands.contains name then .help else .misuse
  | _ => .misuse

/-- What a command line asks for. -/
def parse (words : List String) : Request :=
  match readWords mainGrammar .none none false words with
  | .finished _ => .misuse
  | .misuse => .misuse
  | .version => .version
  | .help => .help
  | .command before name rest =>
    if name = "help" then helpRequest rest
    else
      match readWords (grammarOf name) .none none false rest with
      | .finished behind =>
        match commandOf? name behind with
        | some command => .run (settingsOf before behind) command
        | none => .misuse
      | .version => .version
      | .help => .help
      | _ => .misuse

end CommandLine

end LicenseAudit
