import LicenseAudit.Proofs.Report.Grouping

/-!
# Recording histories

A report is filled by recordings. Each of them names a class, or a decision that stands for one, and
puts a dependency under its license there. Whatever the history, every class is known from it: it
holds what was recorded for it, grouped by license. This is the invariant `Recorded`; one recording
keeps it, and so does a whole history.

Results:
1. `apply_eq_record`: a recording is a record in the class of its fate.
2. `Recorded.apply`: one recording keeps the invariant.
3. `recorded_ofHistory`: every history leads to it.
-/

namespace LicenseAudit

/-- A step in which a report gets one dependency. -/
inductive Recording where
  | allowed (license dependency : String)
  | disallowed (license dependency : String)
  | unknown (license dependency : String)
  | decision (license dependency : String) (allowed : Bool)
  deriving DecidableEq, Repr

namespace Recording

/-- The class that the dependency goes to. -/
def fate : Recording → Fate
  | allowed _ _ => .allowed
  | disallowed _ _ => .disallowed
  | unknown _ _ => .unknown
  | decision _ _ true => .allowed
  | decision _ _ false => .disallowed

/-- The dependency and its license. -/
def pair : Recording → String × String
  | allowed license dependency => (dependency, license)
  | disallowed license dependency => (dependency, license)
  | unknown license dependency => (dependency, license)
  | decision license dependency _ => (dependency, license)

/-- What a history records for a class. -/
def recordedFor (fate : Fate) (history : List Recording) : List (String × String) :=
  (history.filter fun e => e.fate = fate).map pair

theorem recordedFor_append (fate : Fate) (history later : List Recording) :
    recordedFor fate (history ++ later) = recordedFor fate history ++ recordedFor fate later := by
  simp [recordedFor]

theorem recordedFor_singleton (fate : Fate) (e : Recording) :
    recordedFor fate [e] = if fate = e.fate then [e.pair] else [] := by
  by_cases h : fate = e.fate
  · simp [recordedFor, h]
  · simp [recordedFor, h, Ne.symm h]

end Recording

namespace Report

/-- The report after one recording. -/
def apply (r : Report) : Recording → Report
  | .allowed license dependency => r.recordAllowed license dependency
  | .disallowed license dependency => r.recordDisallowed license dependency
  | .unknown license dependency => r.recordUnknown license dependency
  | .decision license dependency allowed => r.recordDecision license dependency allowed

/-- The report after a history of recordings. -/
def ofHistory (history : List Recording) : Report := history.foldl apply empty

/-- Every class of the report holds what the history records for it, grouped by license. -/
def Recorded (history : List Recording) (r : Report) : Prop :=
  ∀ fate, (r.groups fate).pairs = Groups.grouped (Recording.recordedFor fate history)

theorem apply_eq_record (r : Report) (e : Recording) :
    r.apply e = r.record e.fate e.pair.2 e.pair.1 := by
  cases e with
  | decision license dependency allowed => cases allowed <;> rfl
  | _ => rfl

theorem recorded_empty : Recorded [] empty := fun fate => by cases fate <;> rfl

theorem Recorded.apply {history : List Recording} {r : Report} (h : Recorded history r)
    (e : Recording) : Recorded (history ++ [e]) (r.apply e) := by
  intro fate
  rw [apply_eq_record, groups_record, Recording.recordedFor_append,
    Recording.recordedFor_singleton]
  by_cases hfate : fate = e.fate
  · rw [if_pos hfate, if_pos hfate, Groups.pairs_add (h fate)]
  · rw [if_neg hfate, if_neg hfate, List.append_nil, h fate]

theorem Recorded.foldl {history : List Recording} {r : Report} (h : Recorded history r)
    (later : List Recording) : Recorded (history ++ later) (later.foldl Report.apply r) := by
  induction later generalizing history r with
  | nil => rwa [List.append_nil]
  | cons e later ih =>
    rw [List.append_cons]
    exact ih (h.apply e)

theorem recorded_ofHistory (history : List Recording) : Recorded history (ofHistory history) :=
  recorded_empty.foldl history

/-- No recording leaves a license without dependencies. -/
theorem Recorded.inhabited {history : List Recording} {r : Report} (h : Recorded history r)
    (fate : Fate) : ∀ p ∈ (r.groups fate).pairs, p.2 ≠ [] := by
  intro p hp
  rw [h fate] at hp
  exact Groups.ne_nil_of_mem_grouped hp

end Report

end LicenseAudit
