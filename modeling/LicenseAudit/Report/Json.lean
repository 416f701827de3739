import LicenseAudit.Json.Basic
import LicenseAudit.Json.Reader
import LicenseAudit.Report.Basic

/-!
# The report as JSON

Two texts of a report: a pretty one with all keys sorted and a summary, for other programs, and a
compact one in the order of the report, from which the report can be read again.

Main statement: sorting the groups of a report changes no group (`perm_sortedPairs`).
-/

namespace LicenseAudit

/-- The pairs of a map, sorted by key. -/
def Ordered.sortedPairs {β : Type} (m : Ordered β) : List (String × β) :=
  m.pairs.mergeSort fun a b => a.1 ≤ b.1

theorem Ordered.perm_sortedPairs {β : Type} (m : Ordered β) : m.sortedPairs.Perm m.pairs :=
  List.mergeSort_perm _ _

namespace Report

/-- The object of some groups. -/
def groupsJson (ps : List (String × List String)) : Json :=
  .obj (ps.map fun p => (p.1, .arr (p.2.map .str)))

/-- The object of a summary, with its keys sorted. -/
def summaryJson (s : Summary) : Json :=
  .obj [("allowed", .nat s.allowed), ("disallowed", .nat s.disallowed),
    ("total_dependencies", .nat s.total), ("unknown", .nat s.unknown)]

/-- The report with its summary as an object, with all keys sorted. -/
def sortedJson (r : Report) : Json :=
  .obj [("allowed", groupsJson r.allowed.sortedPairs),
    ("disallowed", groupsJson r.disallowed.sortedPairs),
    ("summary", summaryJson r.summary),
    ("unknown", groupsJson r.unknown.sortedPairs)]

/-- The report as text for other programs. -/
def prettyJson (r : Report) : String := String.ofList r.sortedJson.pretty

/-- The report as an object in its own order. -/
def toJson (r : Report) : Json :=
  .obj [("allowed", groupsJson r.allowed.pairs), ("disallowed", groupsJson r.disallowed.pairs),
    ("unknown", groupsJson r.unknown.pairs)]

/-- The text of a report without white space. -/
def compactJson (r : Report) : String := String.ofList r.toJson.compact

/-- The text of a string. -/
def text? : Json.Reading → Option String
  | .str text => text
  | _ => none

/-- The list of the texts of an array. -/
def texts? : Json.Reading → Option (List String)
  | .arr items => items.mapM text?
  | _ => none

/-- A license with its dependencies. -/
def member? (m : Option String × Json.Reading) : Option (String × List String) := do
  return (← m.1, ← texts? m.2)

/-- The groups of an object. A repeated key keeps its place and gets the later list. -/
def groups? : Json.Reading → Option Groups
  | .obj members =>
    (members.mapM member?).map Ordered.ofList
  | _ => none

/-- The only value of a member. -/
def field? (name : String) (members : List (Option String × Json.Reading)) :
    Option Json.Reading :=
  match members.filter fun m => m.1 = some name with
  | [m] => some m.2
  | _ => none

/-- The report of an object with the three fields, each of them once, or of an array of three items.
Other fields are skipped, but their names must be texts. -/
def ofReading? : Json.Reading → Option Report
  | .obj members =>
    if members.all fun m => m.1.isSome then do
      return ⟨← groups? (← field? "allowed" members), ← groups? (← field? "disallowed" members),
        ← groups? (← field? "unknown" members)⟩
    else none
  | .arr [allowed, disallowed, unknown] => do
    return ⟨← groups? allowed, ← groups? disallowed, ← groups? unknown⟩
  | _ => none

/-- Reads a report from JSON text. -/
def ofJson? (text : String) : Option Report := (Json.read? text.toList).bind ofReading?

end Report

end LicenseAudit
