import LicenseAudit.DecisionFile
import LicenseAudit.Failure
import LicenseAudit.Log

/-!
# The files of a run

Reading the configuration, the decisions and the listing, and writing the decisions, each with its
own failures.

The words of the libraries at work are a parameter. Nothing is known about them, so what is said
about runs holds whatever they are.
-/

namespace LicenseAudit

/-- The words of the libraries: why a reader refuses the text of a file, and what is said about a
command line that asks for help or makes no sense. -/
class Wording where
  refusedConfig : String → String
  refusedDecisions : String → String
  help : List String → String
  misuse : List String → String

/-- The files, what comes in at standard input, the name of the current directory, whether standard
output goes to a terminal, and the words of the libraries. -/
structure Workspace where
  files : FileSystem
  input : Content
  directoryName : String
  onTerminal : Bool
  [wording : Wording]

/-- Words to run with, in place of those of the libraries. -/
instance : Wording where
  refusedConfig _ := "not a table of settings"
  refusedDecisions _ := "not a mapping of names to Booleans"
  help _ :=
    "Usage: license-checker [OPTIONS] <COMMAND>\n\n" ++
    "Commands: check, eval, allow, deny, config, help\n" ++
    "Options: --config <CONFIG>, --verbose, --quiet, --log-level <LEVEL>, --help, --version\n"
  misuse _ := "error: the command line makes no sense\n"

namespace Workspace

/-- The path of the configuration in a directory, with a slash between them unless there is one. -/
def configPath (directory : String) : String :=
  if directory.toList.getLast?.all (· = '/') then directory ++ Config.fileName
  else directory ++ "/" ++ Config.fileName

/-- The configuration at a path, or the one of the current directory, which need not be there. -/
def loadConfig (w : Workspace) (path : Option String) : Except Failure Config :=
  let file := path.getD Config.fileName
  let shown := path.getD (configPath w.directoryName)
  if w.files.isPresent file then
    match w.files.read file with
    | .error fault => .error (.configUnreadable shown fault)
    | .ok content =>
      match Config.ofFile? content with
      | none => .error (.configMalformed ⟨shown, w.wording.refusedConfig content⟩)
      | some c =>
        match c.fault? with
        | some fault => .error (.configInvalid shown fault)
        | none => .ok c
  else
    match path with
    | some _ => .error (.configMissing shown)
    | none => .ok Config.default

/-- The decisions of a file. -/
def readDecisions (w : Workspace) (path : String) : Except Failure Decisions :=
  match w.files.read path with
  | .error fault => .error (.decisionsUnreadable path fault)
  | .ok content =>
    match Decisions.ofFile? content with
    | none => .error (.decisionsMalformed ⟨path, w.wording.refusedDecisions content⟩)
    | some d => .ok d

/-- The decisions of a file that need not be there. -/
def loadDecisions (w : Workspace) (path : String) : Except Failure Decisions :=
  if w.files.isPresent path then w.readDecisions path else .ok Decisions.empty

/-- What is logged when decisions are loaded. -/
def loadLog (w : Workspace) (path : String) : List LogEntry :=
  if w.files.isPresent path then []
  else [⟨.info, .decisionFile,
    "No licenses file at " ++ path ++ ", starting without decisions"⟩]

/-- Writes decisions to a file. -/
def saveDecisions (w : Workspace) (path : String) (d : Decisions) : Except Failure Workspace :=
  match w.files.write path d.toFile with
  | .error fault => .error (.decisionsUnwritable path fault)
  | .ok files => .ok { w with files }

/-- The path stands for standard input: a dash, with nothing behind it but slashes and points. -/
def isInput (path : String) : Bool :=
  match FileSystem.parts path with
  | first :: rest => first = "-" && rest.all FileSystem.isStay
  | [] => false

/-- The text of a listing. -/
def readListingText (w : Workspace) (path : String) : Except Failure String :=
  if isInput path then w.input.read.mapError .inputUnreadable
  else (w.files.read path).mapError (.listingUnreadable path)

/-- The listing at a path. -/
def readListing (w : Workspace) (path : String) : Except Failure Listing :=
  match w.readListingText path with
  | .error failure => .error failure
  | .ok content => (Listing.parse content).mapError (.listingMalformed path)

end Workspace

end LicenseAudit
