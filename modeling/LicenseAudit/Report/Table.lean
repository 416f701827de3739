import LicenseAudit.Report.Basic

/-!
# The report as a table

A summary of two lines, a table of the issues or of all dependencies, and hints. A cell holds a
fixed number of characters: a shorter text is padded with spaces, a longer one is cut and ends in an
ellipsis.

Main statement: a cut text has exactly as many characters as its cell (`length_truncate`).
-/

namespace LicenseAudit.Report

/-- A text of at most `width` characters; a longer one loses its end to an ellipsis. -/
def truncate (width : Nat) (text : List Char) : List Char :=
  if text.length ≤ width then text else text.take (width - 1) ++ ['…']

/-- A text with spaces behind it up to `width` characters. -/
def pad (width : Nat) (text : List Char) : List Char :=
  text ++ List.replicate (width - text.length) ' '

theorem length_truncate {width : Nat} {text : List Char} (hw : 0 < width)
    (h : width < text.length) : (truncate width text).length = width := by
  rw [truncate, if_neg (by omega), List.length_append, List.length_take]
  simp only [List.length_singleton]
  omega

/-- One dependency with its license and the mark of its class. -/
structure Row where
  dependency : String
  license : String
  status : String
  deriving DecidableEq, Repr

/-- The rows of one class. -/
def rowsOf (status : String) (groups : Groups) : List Row :=
  groups.pairs.flatMap fun p => p.2.map fun dependency => ⟨dependency, p.1, status⟩

/-- The mark of licenses without a decision. -/
def unknownStatus : UnknownPolicy → String
  | .report => "⚠️ Unknown"
  | .deny => "🚫 Unknown"

/-- The rows of the table: the allowed ones only on request. -/
def rows (r : Report) (policy : UnknownPolicy) (showAll : Bool) : List Row :=
  (if showAll then rowsOf "✅ Allowed" r.allowed else []) ++
    rowsOf "🚫 Disallowed" r.disallowed ++ rowsOf (unknownStatus policy) r.unknown

/-- The line of a row. -/
def Row.line (row : Row) : String :=
  String.ofList
    (['│', ' '] ++ pad 20 (truncate 20 row.dependency.toList) ++ [' ', '│', ' '] ++
      pad 24 (truncate 24 row.license.toList) ++ [' ', '│', ' '] ++
      pad 12 row.status.toList ++ [' ', '│', '\n'])

/-- The lines above the rows. -/
def tableHead : String :=
  "┌──────────────────────┬──────────────────────────┬───────────────┐\n" ++
  "│ Dependency           │ License                  │ Status        │\n" ++
  "├──────────────────────┼──────────────────────────┼───────────────┤\n"

/-- The line below the rows. -/
def tableFoot : String :=
  "└──────────────────────┴──────────────────────────┴───────────────┘\n"

/-- The table of some rows. -/
def tableOf (rs : List Row) : String := tableHead ++ String.join (rs.map Row.line) ++ tableFoot

/-- The two lines of the summary. -/
def summaryLines (s : Summary) : String :=
  "📜 License Check (" ++ Nat.repr s.total ++ " dependencies)\n" ++
  "✅ " ++ Nat.repr s.allowed ++ " allowed  🚫 " ++ Nat.repr s.disallowed ++
  " disallowed  ⚠️ " ++ Nat.repr s.unknown ++ " unknown\n\n"

/-- The report as text for a reader. -/
def table (r : Report) (policy : UnknownPolicy) (showAll : Bool) : String :=
  let s := r.summary
  let body :=
    match r.rows policy showAll with
    | [] => "✅ No issues found!\n"
    | rs =>
      (if showAll then "📦 All Dependencies:\n" else "⚠️  Issues Found:\n") ++ tableOf rs
  let more :=
    if !showAll && 0 < s.allowed then
      "\n💡 Run with --all to see all " ++ Nat.repr s.total ++ " dependencies\n"
    else ""
  let hint :=
    if r.hasUnknown then
      "\n💡 Record a decision with 'license-checker allow <LICENSE>' or " ++
        "'license-checker deny <LICENSE>'\n"
    else ""
  summaryLines s ++ body ++ more ++ hint

end LicenseAudit.Report
