import LicenseAudit.Ordered

/-!
# Reports

A report sorts dependencies by the fate of their license expression: allowed, disallowed or unknown.
Each class maps a license expression to the dependencies that use it.

Main statement: each recording adds one dependency to the summary (`count_add`).
-/

namespace LicenseAudit

/-- What licenses without a decision mean for the outcome. -/
inductive UnknownPolicy where
  /-- They are listed only. -/
  | report
  /-- They fail the check as disallowed ones do. -/
  | deny
  deriving DecidableEq, Repr

namespace UnknownPolicy

/-- The name of a policy. -/
def name : UnknownPolicy → String
  | report => "report"
  | deny => "deny"

/-- The policy of a name. -/
def ofName? (text : String) : Option UnknownPolicy :=
  if text = "report" then some report else if text = "deny" then some deny else none

end UnknownPolicy

/-- Dependencies grouped by license expression. -/
abbrev Groups := Ordered (List String)

namespace Groups

/-- The groups with a dependency added at the end of its license. -/
def add (g : Groups) (license dependency : String) : Groups :=
  g.alter license fun ds => ds.getD [] ++ [dependency]

/-- The number of dependencies in a list of groups. -/
def countIn : List (String × List String) → Nat
  | [] => 0
  | p :: rest => p.2.length + countIn rest

/-- The number of dependencies. -/
def count (g : Groups) : Nat := countIn g.pairs

theorem countIn_alterPairs (license dependency : String) (ps : List (String × List String)) :
    countIn (Ordered.alterPairs license (fun ds => ds.getD [] ++ [dependency]) ps) =
      countIn ps + 1 := by
  induction ps with
  | nil => simp [Ordered.alterPairs, countIn]
  | cons p ps ih =>
    obtain ⟨k, ds⟩ := p
    by_cases h : k = license
    · simp [Ordered.alterPairs, countIn, h]
      omega
    · simp only [Ordered.alterPairs, if_neg h, countIn, ih]
      omega

theorem count_add (g : Groups) (license dependency : String) :
    count (g.add license dependency) = count g + 1 :=
  countIn_alterPairs license dependency g.pairs

end Groups

/-- The outcome of checking a listing. -/
structure Report where
  allowed : Groups
  disallowed : Groups
  unknown : Groups
  deriving DecidableEq

namespace Report

/-- The report on no dependency. -/
def empty : Report := ⟨Ordered.empty, Ordered.empty, Ordered.empty⟩

/-- Adds a dependency whose license is allowed. -/
def recordAllowed (r : Report) (license dependency : String) : Report :=
  { r with allowed := r.allowed.add license dependency }

/-- Adds a dependency whose license is disallowed. -/
def recordDisallowed (r : Report) (license dependency : String) : Report :=
  { r with disallowed := r.disallowed.add license dependency }

/-- Adds a dependency whose license needs a decision that is missing. -/
def recordUnknown (r : Report) (license dependency : String) : Report :=
  { r with unknown := r.unknown.add license dependency }

/-- Adds a dependency whose license has been decided. -/
def recordDecision (r : Report) (license dependency : String) (allowed : Bool) : Report :=
  if allowed then r.recordAllowed license dependency else r.recordDisallowed license dependency

/-- Some license is disallowed. -/
def hasDisallowed (r : Report) : Bool := !r.disallowed.isEmpty

/-- Some license is unknown. -/
def hasUnknown (r : Report) : Bool := !r.unknown.isEmpty

/-- The check fails under the given policy. -/
def fails (r : Report) (policy : UnknownPolicy) : Bool :=
  r.hasDisallowed || (policy = .deny && r.hasUnknown)

/-- The number of dependencies in each class. -/
structure Summary where
  allowed : Nat
  disallowed : Nat
  unknown : Nat
  deriving DecidableEq, Repr

/-- The number of dependencies in all classes. -/
def Summary.total (s : Summary) : Nat := s.allowed + s.disallowed + s.unknown

/-- The summary of a report. -/
def summary (r : Report) : Summary :=
  ⟨Groups.count r.allowed, Groups.count r.disallowed, Groups.count r.unknown⟩

end Report

end LicenseAudit
