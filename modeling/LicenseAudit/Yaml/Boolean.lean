import LicenseAudit.Yaml.Node

/-!
# Booleans

A Boolean is a plain scalar with one of six texts. A literal block counts as well if its tag says
that it is a Boolean.
-/

namespace LicenseAudit.Yaml

/-- The Boolean that a text stands for. -/
def boolean? (text : List Char) : Option Bool :=
  if text = "true".toList ∨ text = "True".toList ∨ text = "TRUE".toList then some true
  else if text = "false".toList ∨ text = "False".toList ∨ text = "FALSE".toList then some false
  else none

/-- The tag of Booleans. -/
def booleanTag : List Char := "tag:yaml.org,2002:bool".toList

/-- The Boolean that a scalar stands for. -/
def Scalar.boolean? (s : Scalar) : Option Bool :=
  if s.style = .plain ∨ (s.style = .literal ∧ s.tag = some booleanTag) then Yaml.boolean? s.text
  else none

end LicenseAudit.Yaml
