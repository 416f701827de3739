import LicenseAudit.Decisions
import LicenseAudit.Expr.Eval
import LicenseAudit.Listing
import LicenseAudit.Report.Basic

/-!
# Verdicts

Decisions on names give a verdict on license expressions, and so a report on a listing. An
expression that needs a missing decision is collected in the report; any other error ends the check.
-/

namespace LicenseAudit

/-- Why there is no verdict on a license expression. -/
inductive CheckError where
  | unknownLicense (license name : String)
  | parse (license : String) (source : ParseError)
  | solve (license : String) (source : EvalError)
  deriving DecidableEq, Repr

namespace CheckError

/-- What the error itself says. -/
def message : CheckError → String
  | unknownLicense license name =>
    "unknown license '" ++ name ++ "' in '" ++ license ++ "'"
  | parse license _ => "failed to parse license '" ++ license ++ "'"
  | solve license _ => "failed to solve license '" ++ license ++ "'"

/-- What the errors below it say, outermost first. -/
def causes : CheckError → List String
  | unknownLicense _ _ => []
  | parse _ source => source.parseMessages
  | solve _ source => source.evalMessages

end CheckError

namespace Decisions

/-- The expression of a license text. -/
def parseLicense (license : String) : Except CheckError Expr :=
  (Expr.parse license).mapError (.parse license)

/-- The error of an evaluation, as an error about a license text. -/
def checkErrorOf (license : String) (source : EvalError) : CheckError :=
  match source.unknownVariable? with
  | some name => .unknownLicense license name
  | none => .solve license source

/-- Whether a license expression is allowed. -/
def verdict (d : Decisions) (license : String) : Except CheckError Bool :=
  match parseLicense license with
  | .error e => .error e
  | .ok e => (e.eval d.find?).mapError (checkErrorOf license)

/-- The names of a license expression without a decision, in the order of their appearance. -/
def undecided (d : Decisions) (license : String) : Except CheckError (List String) :=
  match parseLicense license with
  | .error e => .error e
  | .ok e => .ok (e.names.filter fun name => !d.decides name)

/-- Adds dependencies with their licenses to a report. -/
def reviewFrom (d : Decisions) (r : Report) : List (String × String) → Except CheckError Report
  | [] => .ok r
  | (dependency, license) :: rest =>
    match d.verdict license with
    | .ok allowed => reviewFrom d (r.recordDecision license dependency allowed) rest
    | .error (.unknownLicense _ _) => reviewFrom d (r.recordUnknown license dependency) rest
    | .error e => .error e

/-- The report on a listing. -/
def review (d : Decisions) (listing : Listing) : Except CheckError Report :=
  reviewFrom d .empty listing.pairs

end Decisions

end LicenseAudit
