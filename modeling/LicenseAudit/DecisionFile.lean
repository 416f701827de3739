import LicenseAudit.Decisions
import LicenseAudit.Text.Blank
import LicenseAudit.Yaml.Alias
import LicenseAudit.Yaml.Written

/-!
# Files of decisions

Decisions are kept as a flat YAML mapping of names to Booleans. A blank file has no decisions.
-/

namespace LicenseAudit.Decisions

/-- The decision of an entry. -/
def ofEntry? (e : Yaml.Scalar × Yaml.Scalar) : Option (String × Bool) :=
  e.2.boolean?.map fun b => (String.ofList e.1.text, b)

/-- Reads decisions from a YAML text that is not blank; a later entry for a name replaces an earlier
one. -/
def ofYaml? (text : List Char) : Option Decisions := do
  let document ← Yaml.readStream text
  let entries ← document.scalars?
  return ofPairs (← entries.mapM ofEntry?)

/-- Reads the decisions of a file. -/
def ofFile? (content : String) : Option Decisions :=
  if Text.blank content then some empty else ofYaml? content.toList

/-- The content of a file with these decisions. -/
def toFile (d : Decisions) : String := String.ofList (Yaml.mappingText d.entries)

end LicenseAudit.Decisions
