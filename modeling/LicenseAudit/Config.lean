import LicenseAudit.Json.Basic
import LicenseAudit.Report.Basic
import LicenseAudit.Toml.Document

/-!
# Configuration

Where the decisions and the listing are, and how the outcome is presented. All of it may be left out
of the file of a configuration.
-/

namespace LicenseAudit

/-- Whether somebody watches the run. -/
inductive Interactivity where
  | auto
  | always
  | never
  deriving DecidableEq, Repr

namespace Interactivity

/-- The answer that does not depend on where the output goes. -/
def fixed? : Interactivity → Option Bool
  | auto => none
  | always => some true
  | never => some false

/-- Somebody watches the run: by default if its output goes to a terminal. -/
def isWatched (i : Interactivity) (onTerminal : Bool) : Bool := i.fixed?.getD onTerminal

/-- The name of an interactivity. -/
def name : Interactivity → String
  | auto => "auto"
  | always => "always"
  | never => "never"

/-- The interactivity of a name. -/
def ofName? (text : String) : Option Interactivity :=
  if text = "auto" then some auto
  else if text = "always" then some always
  else if text = "never" then some never
  else none

end Interactivity

/-- The settings of a configuration. -/
structure Config where
  licensesFile : String
  currentLicenses : Option String
  format : Option String
  onUnknown : Option UnknownPolicy
  interactive : Option Interactivity
  deriving DecidableEq, Repr

/-- Why the settings cannot be used. -/
inductive ConfigFault where
  | noLicensesFile
  | unsupportedFormat (format : String)
  deriving DecidableEq, Repr

/-- What the error says. -/
def ConfigFault.message : ConfigFault → String
  | noLicensesFile => "licenses_file must not be empty"
  | unsupportedFormat format =>
    "Unsupported format '" ++ format ++ "', expected 'table' or 'json'"

namespace Config

/-- The name of the file with the configuration. -/
def fileName : String := ".license-checker.toml"

/-- The file of decisions if no other one is named. -/
def defaultLicensesFile : String := ".licenses.yaml"

/-- The configuration without a file. -/
def default : Config := ⟨defaultLicensesFile, none, some "table", none, some .auto⟩

/-- Why the settings cannot be used, if they cannot. -/
def fault? (c : Config) : Option ConfigFault :=
  if c.licensesFile = "" then some .noLicensesFile
  else
    match c.format with
    | none => none
    | some format =>
      if format = "table" ∨ format = "json" then none else some (.unsupportedFormat format)

/-- What unknown licenses mean, depending on whether somebody watches. -/
def policy (c : Config) (watched : Bool) : UnknownPolicy :=
  c.onUnknown.getD (if watched then .report else .deny)

/-- A setting that may be missing but not malformed: the outer answer is absent if it is. -/
def optional {α : Type} (read : Toml.Entry → Option α) (key : String) (es : Toml.Entries) :
    Option (Option α) :=
  match es.lookup key with
  | none => some none
  | some e => (read e).map some

/-- The text of a string. -/
def text? : Toml.Entry → Option String
  | .string text => some text
  | _ => none

/-- Nothing stands in an array or table. -/
def isVoid : Toml.Entry → Bool
  | .array size => size = 0
  | .inline _ es => es.isEmpty
  | .table _ es => es.isEmpty
  | .tables ms => ms.isEmpty
  | _ => false

/-- A name: a string, or the only key of a table with nothing in it. -/
def name? : Toml.Entry → Option String
  | .string text => some text
  | .inline _ [(key, e)] => if isVoid e then some key else none
  | .table _ [(key, e)] => if isVoid e then some key else none
  | _ => none

/-- The configuration of a document. Keys that mean nothing are skipped. -/
def ofEntries? (es : Toml.Entries) : Option Config := do
  let licensesFile ← optional text? "licenses_file" es
  return {
    licensesFile := licensesFile.getD defaultLicensesFile
    currentLicenses := ← optional text? "current_licenses" es
    format := ← optional text? "format" es
    onUnknown := ← optional (fun e => (name? e).bind UnknownPolicy.ofName?) "on_unknown" es
    interactive := ← optional (fun e => (name? e).bind Interactivity.ofName?) "interactive" es }

/-- Reads a configuration from the text of a file. -/
def ofFile? (content : String) : Option Config := (Toml.read? content.toList).bind ofEntries?

/-- An optional text in JSON. -/
def optionalJson (text : Option String) : Json :=
  match text with
  | none => .null
  | some s => .str s

/-- The configuration as an object. -/
def toJson (c : Config) : Json :=
  .obj [("licenses_file", .str c.licensesFile),
    ("current_licenses", optionalJson c.currentLicenses),
    ("format", optionalJson c.format),
    ("on_unknown", optionalJson (c.onUnknown.map UnknownPolicy.name)),
    ("interactive", optionalJson (c.interactive.map Interactivity.name))]

end Config

end LicenseAudit
