/-!
# Indented text

A text of several lines that is set behind a first column.
-/

namespace LicenseAudit.Text

/-- A text whose further lines start with so many spaces. -/
def indented (width : Nat) (text : String) : String :=
  String.ofList (text.toList.flatMap fun c =>
    if c = '\n' then '\n' :: List.replicate width ' ' else [c])

end LicenseAudit.Text
