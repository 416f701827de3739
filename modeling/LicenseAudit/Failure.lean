import LicenseAudit.Config
import LicenseAudit.FileSystem
import LicenseAudit.Text.Indent
import LicenseAudit.Verdict

/-!
# Failures of a run

Everything that ends a run early, and how it is told: the failure itself first, then what caused it.
What the readers of settings and of decisions say about a text that they refuse is not modelled: a
failure of this kind carries their words, whatever they are.
-/

namespace LicenseAudit

/-- A file whose text is refused, and the words of the reader that refuses it. -/
structure Refusal where
  path : String
  cause : String
  deriving Repr

/-- Why a run ended early. -/
inductive Failure where
  | configMissing (path : String)
  | configUnreadable (path : String) (fault : FileFault)
  | configMalformed (refusal : Refusal)
  | configInvalid (path : String) (fault : ConfigFault)
  | decisionsUnreadable (path : String) (fault : FileFault)
  | decisionsMalformed (refusal : Refusal)
  | decisionsUnwritable (path : String) (fault : FileFault)
  | noListing
  | inputUnreadable (fault : FileFault)
  | listingUnreadable (path : String) (fault : FileFault)
  | listingMalformed (path : String) (fault : Listing.Fault)
  | outputUnwritable (fault : FileFault)
  | check (error : CheckError)
  deriving Repr

namespace Failure

/-- What the failure itself says. -/
def message : Failure → String
  | configMissing path => "Config file not found: " ++ path
  | configUnreadable path _ => "Failed to read config file: " ++ path
  | configMalformed refusal => "Failed to parse config file: " ++ refusal.path
  | configInvalid path _ => "Invalid config file: " ++ path
  | decisionsUnreadable path _ => "Failed to read licenses file: " ++ path
  | decisionsMalformed refusal => "Failed to parse licenses file: " ++ refusal.path
  | decisionsUnwritable path _ => "Failed to write licenses file: " ++ path
  | noListing =>
    "No current licenses given. Pass --licenses <FILE> or set current_licenses in the config file."
  | inputUnreadable _ => "Failed to read current licenses from stdin"
  | listingUnreadable path _ => "Failed to read current licenses: " ++ path
  | listingMalformed path _ => "Failed to parse current licenses: " ++ path
  | outputUnwritable fault => fault.message
  | check error => error.message

/-- What its causes say, outermost first. -/
def causes : Failure → List String
  | configMissing _ => []
  | configUnreadable _ fault => [fault.message]
  | configMalformed refusal => [refusal.cause]
  | configInvalid _ fault => [fault.message]
  | decisionsUnreadable _ fault => [fault.message]
  | decisionsMalformed refusal => [refusal.cause]
  | decisionsUnwritable _ fault => [fault.message]
  | noListing => []
  | inputUnreadable fault => [fault.message]
  | listingUnreadable _ fault => [fault.message]
  | listingMalformed _ fault => [fault.message]
  | outputUnwritable _ => []
  | check error => error.causes

/-- A number in five columns, at the right. -/
def numberColumn (n : Nat) : String :=
  let digits := (Nat.repr n).toList
  String.ofList (List.replicate (5 - digits.length) ' ' ++ digits)

/-- The lines of several causes, numbered from `n`. -/
def numbered (n : Nat) : List String → String
  | [] => ""
  | cause :: rest =>
    "\n" ++ numberColumn n ++ ": " ++ Text.indented 7 cause ++ numbered (n + 1) rest

/-- The part of an error report about its causes. -/
def causeLines : List String → String
  | [] => ""
  | [cause] => "\n\nCaused by:\n    " ++ Text.indented 4 cause
  | first :: second :: rest => "\n\nCaused by:" ++ numbered 0 (first :: second :: rest)

/-- The error report of a failure. -/
def report (f : Failure) : String := "Error: " ++ f.message ++ causeLines f.causes ++ "\n"

/-- The failure and its causes in one line. -/
def oneLine (f : Failure) : String := String.intercalate ": " (f.message :: f.causes)

end Failure

end LicenseAudit
