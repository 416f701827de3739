import LicenseAudit.CommandLine.Command
import LicenseAudit.Report.Json
import LicenseAudit.Report.Table
import LicenseAudit.Workspace

/-!
# Runs

What a command does to the files and what it says: an exit code, standard output, a log, and what
follows the log on standard error. A run changes one file at most.
-/

namespace LicenseAudit

/-- The outcome of a run. -/
structure Outcome where
  exit : Nat
  out : String
  log : List LogEntry
  err : String
  files : FileSystem

namespace Outcome

/-- A run that ended early. -/
def failed (files : FileSystem) (log : List LogEntry) (f : Failure) : Outcome :=
  ⟨1, "", log, f.report, files⟩

/-- What appears on standard error. -/
def errText (o : Outcome) (level : LogLevel) : String := LogEntry.lines level o.log ++ o.err

end Outcome

/-- The entry that is logged when an expression is read. -/
def parseEntry (expression : String) : LogEntry :=
  ⟨.trace, .expressions, "parsing expression '" ++ expression ++ "'"⟩

namespace Decisions

/-- What is logged about one dependency. -/
def reviewEntries (d : Decisions) (dependency license : String) : List LogEntry :=
  [⟨.debug, .verdicts,
      "Checking license '" ++ license ++ "' of dependency '" ++ dependency ++ "'"⟩,
    parseEntry license] ++
  match d.verdict license with
  | .error (.unknownLicense _ name) =>
    [⟨.debug, .verdicts,
      "No decision for '" ++ name ++ "', needed by '" ++ dependency ++ "'"⟩]
  | _ => []

/-- What is logged about a listing, up to the first error that ends the check. -/
def reviewLog (d : Decisions) : List (String × String) → List LogEntry
  | [] => []
  | (dependency, license) :: rest =>
    d.reviewEntries dependency license ++
      match d.verdict license with
      | .ok _ => reviewLog d rest
      | .error (.unknownLicense _ _) => reviewLog d rest
      | .error _ => []

end Decisions

namespace Run

/-- Somebody watches the run: as the options say, or else the configuration. -/
def isWatched (w : Workspace) (c : Config) (o : CheckOptions) : Bool :=
  o.interactive.getD ((c.interactive.getD .auto).isWatched w.onTerminal)

/-- What unknown licenses mean: as the options say, or else the configuration. -/
def policyOf (w : Workspace) (c : Config) (o : CheckOptions) : UnknownPolicy :=
  o.onUnknown.getD (c.policy (isWatched w c o))

/-- The format of the report: as the options say, or else the configuration. -/
def formatOf (c : Config) (o : CheckOptions) : OutputFormat :=
  o.format.getD (if c.format = some "json" then .json else .table)

/-- The warning about licenses without a decision, with advice if nobody watches. -/
def unknownEntries (watched : Bool) (r : Report) : List LogEntry :=
  if r.hasUnknown then
    [⟨.warn, .checkCommand,
      "Licenses without a decision: " ++ String.intercalate ", " r.unknown.keys ++
        if watched then ""
        else
          ". Record decisions with \x60license-checker allow\x60 or " ++
            "\x60license-checker deny\x60, for example from the project root."⟩]
  else []

/-- The text of a report. -/
def reportText (c : Config) (o : CheckOptions) (policy : UnknownPolicy) (r : Report) : String :=
  match formatOf c o with
  | .json => r.prettyJson
  | .table => r.table policy o.showAll

/-- The end of a check: its exit code and last words. -/
def verdictOf (o : CheckOptions) (policy : UnknownPolicy) (quiet : Bool) (r : Report) :
    Nat × String :=
  if r.fails policy && !o.exitZero then
    (1, if quiet then "" else "License check failed\n")
  else (0, "")

/-- Shows a report: in a file, or on standard output unless the run is quiet. -/
def showReport (w : Workspace) (c : Config) (o : CheckOptions) (quiet : Bool)
    (log : List LogEntry) (r : Report) : Outcome :=
  let policy := policyOf w c o
  let text := reportText c o policy r
  let (exit, err) := verdictOf o policy quiet r
  match o.output with
  | none => ⟨exit, if quiet then "" else text ++ "\n", log, err, w.files⟩
  | some path =>
    match w.files.write path text with
    | .error fault => .failed w.files log (.outputUnwritable fault)
    | .ok files => ⟨exit, "", log, err, files⟩

/-- Checks a listing against the decisions. -/
def check (w : Workspace) (c : Config) (o : CheckOptions) (quiet : Bool) : Outcome :=
  match o.licenses.or c.currentLicenses with
  | none => .failed w.files [] .noListing
  | some path =>
    let log := w.loadLog c.licensesFile
    match w.loadDecisions c.licensesFile with
    | .error failure => .failed w.files log failure
    | .ok d =>
      match w.readListing path with
      | .error failure => .failed w.files log failure
      | .ok listing =>
        let start : LogEntry :=
          ⟨.info, .checkCommand,
            "Checking " ++ Nat.repr listing.size ++ " dependencies against " ++
              Nat.repr d.size ++ " decisions"⟩
        let log := log ++ start :: d.reviewLog listing.pairs
        match d.review listing with
        | .error e => .failed w.files log (.check e)
        | .ok r => showReport w c o quiet (log ++ unknownEntries (isWatched w c o) r) r

/-- Says whether an expression is allowed. Further decisions hold for this run only, and those that
disallow have the last word. -/
def eval (w : Workspace) (c : Config) (expression : String) (allow deny : List String) : Outcome :=
  let log := w.loadLog c.licensesFile
  match w.loadDecisions c.licensesFile with
  | .error failure => .failed w.files log failure
  | .ok d =>
    let d := (d.recordAll (allow.map (·, true))).recordAll (deny.map (·, false))
    let log := log ++ [parseEntry expression]
    match d.verdict expression with
    | .ok true => ⟨0, "allowed\n", log, "", w.files⟩
    | .ok false => ⟨1, "disallowed\n", log, "", w.files⟩
    | .error (.unknownLicense _ _) =>
      -- The expression is read a second time for the names that are missing.
      let log := log ++ [parseEntry expression]
      match d.undecided expression with
      | .ok names => ⟨2, "unknown: " ++ String.intercalate ", " names ++ "\n", log, "", w.files⟩
      | .error e => .failed w.files log (.check e)
    | .error e => .failed w.files log (.check e)

/-- The word for a decision. -/
def decisionWord (allowed : Bool) : String := if allowed then "allowed" else "disallowed"

/-- Records a decision on some licenses and saves the decisions. -/
def decide (w : Workspace) (c : Config) (allowed : Bool) (licenses : List String) (quiet : Bool) :
    Outcome :=
  let log := w.loadLog c.licensesFile
  match w.loadDecisions c.licensesFile with
  | .error failure => .failed w.files log failure
  | .ok d =>
    let log := log ++ licenses.map fun license =>
      ⟨.debug, .decideCommand,
        "Recording '" ++ license ++ "' as " ++ decisionWord allowed⟩
    match w.saveDecisions c.licensesFile (d.recordAll (licenses.map (·, allowed))) with
    | .error failure => .failed w.files log failure
    | .ok w =>
      let lines := licenses.map fun license =>
        "✅ " ++ license ++ " is now " ++ decisionWord allowed ++ "\n"
      let out := String.join lines ++ "Saved decisions to " ++ c.licensesFile ++ "\n"
      ⟨0, if quiet then "" else out, log, "", w.files⟩

/-- Shows or checks the configuration. -/
def config (w : Workspace) (path : Option String) (showIt validate quiet : Bool) : Outcome :=
  if !showIt && !validate then
    ⟨1, "", [], if quiet then "" else "Use --show or --validate\n", w.files⟩
  else
    match w.loadConfig path with
    | .error failure =>
      ⟨1, "", [],
        if quiet then ""
        else "❌ Configuration validation failed: " ++ failure.oneLine ++ "\n", w.files⟩
    | .ok c =>
      let shown := if showIt then String.ofList c.toJson.pretty ++ "\n" else ""
      let valid := if validate then "✅ Configuration is valid\n" else ""
      ⟨0, if quiet then "" else shown ++ valid, [], "", w.files⟩

/-- Goes on with the configuration, or fails if it cannot be loaded. -/
def withConfig (w : Workspace) (path : Option String) (next : Config → Outcome) : Outcome :=
  match w.loadConfig path with
  | .error failure => .failed w.files [] failure
  | .ok c => next c

theorem withConfig_of_ok {w : Workspace} {path : Option String} {c : Config}
    (h : w.loadConfig path = .ok c) (next : Config → Outcome) : withConfig w path next = next c := by
  rw [withConfig, h]

theorem withConfig_of_error {w : Workspace} {path : Option String} {failure : Failure}
    (h : w.loadConfig path = .error failure) (next : Config → Outcome) :
    withConfig w path next = .failed w.files [] failure := by
  rw [withConfig, h]

/-- Does what a command asks for. All commands but the one about the configuration need one that can
be loaded. -/
def command (w : Workspace) (s : Settings) : Command → Outcome
  | .check options => withConfig w s.config (check w · options s.quiet)
  | .eval expression allow deny => withConfig w s.config (eval w · expression allow deny)
  | .decide allowed licenses => withConfig w s.config (decide w · allowed licenses s.quiet)
  | .config showIt validate => config w s.config showIt validate s.quiet

/-- The name and version of the program. -/
def versionLine : String := "license-checker 0.1.0\n"

/-- Does what a command line asks for, and says how much of the log is shown. -/
def request (w : Workspace) (words : List String) (r : Request) : Outcome × LogLevel :=
  match r with
  | .run settings c => (command w settings c, settings.level)
  | .version => (⟨0, versionLine, [], "", w.files⟩, .none)
  | .help => (⟨0, w.wording.help words, [], "", w.files⟩, .none)
  | .misuse => (⟨2, "", [], w.wording.misuse words, w.files⟩, .none)

/-- The paths that a command may read or write. -/
def commandPaths (c : Config) : Command → List String
  | .check o => c.licensesFile :: (o.licenses.or c.currentLicenses).toList ++ o.output.toList
  | .config _ _ => []
  | _ => [c.licensesFile]

/-- The paths that a command line may read or write, as far as its files tell. -/
def paths (w : Workspace) (words : List String) : List String :=
  match CommandLine.parse words with
  | .run s command =>
    s.config.getD Config.fileName ::
      match w.loadConfig s.config with
      | .ok c => commandPaths c command
      | .error _ => []
  | _ => []

/-- Runs a command line. -/
def commandLine (w : Workspace) (words : List String) : Outcome × LogLevel :=
  request w words (CommandLine.parse words)

theorem commandLine_run {w : Workspace} {words : List String} {s : Settings} {c : Command}
    (h : CommandLine.parse words = .run s c) : (commandLine w words).1 = command w s c := by
  rw [commandLine, h]
  rfl

end Run

end LicenseAudit
