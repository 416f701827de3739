import LicenseAudit.Proofs.Report.History
import LicenseAudit.Report.Table

/-!
# What the table says about the outcome

The exit code is decided by what classes are empty, the summary counts dependencies, and the table
has a row for each dependency that it shows. They tell the same story as long as no license is
without dependencies, and recordings leave none without.

Results:
1. `length_rowsOf`: a class has as many rows as dependencies.
2. `exists_forbidden_rows_iff`: which classes put a forbidden row into the table.
3. `saysNoIssues_iff`, `showsRows_iff`: when the table gives way to a single line.
4. `fails_iff_forbidden_row`: the outcome, the summary and the table agree.
-/

namespace LicenseAudit.Report

/-! ## Definitions -/

/-- The mark of a row starts with the forbidden sign. -/
def Row.isForbidden (row : Row) : Bool := row.status.toList.head? = some '🚫'

/-- Behind the summary the report says that there are no issues, and shows no table. -/
def SaysNoIssues (r : Report) (policy : UnknownPolicy) (showAll : Bool) : Prop :=
  ∃ hints, r.table policy showAll = summaryLines r.summary ++ "✅ No issues found!\n" ++ hints

/-- Behind the summary the report shows its rows in a table under a heading. -/
def ShowsRows (r : Report) (policy : UnknownPolicy) (showAll : Bool) : Prop :=
  ∃ hints, r.table policy showAll = summaryLines r.summary ++
    ((if showAll then "📦 All Dependencies:\n" else "⚠️  Issues Found:\n") ++
      tableOf (r.rows policy showAll)) ++ hints

/-! ## Rows -/

theorem length_rowsOf (status : String) (g : Groups) : (rowsOf status g).length = g.count := by
  rw [Groups.count_eq_length, Ordered.values, rowsOf]
  induction g.pairs with
  | nil => rfl
  | cons p ps ih => simp [ih]

theorem status_of_mem_rowsOf {status : String} {g : Groups} {row : Row}
    (h : row ∈ rowsOf status g) : row.status = status := by
  rw [rowsOf, List.mem_flatMap] at h
  obtain ⟨p, -, hrow⟩ := h
  obtain ⟨dependency, -, rfl⟩ := List.mem_map.1 hrow
  rfl

/-- A class puts forbidden rows into the table if its mark says so and it is not empty. -/
theorem exists_forbidden_rowsOf_iff {status : String} {g : Groups}
    (h : ∀ p ∈ g.pairs, p.2 ≠ []) :
    (∃ row ∈ rowsOf status g, row.isForbidden = true) ↔
      status.toList.head? = some '🚫' ∧ g.isEmpty = false := by
  have hempty : g.isEmpty = false ↔ rowsOf status g ≠ [] := by
    rw [← Bool.not_eq_true, ← Groups.count_eq_zero_iff h, ← length_rowsOf status g,
      List.length_eq_zero_iff]
  rw [hempty]
  constructor
  · rintro ⟨row, hrow, hforbidden⟩
    refine ⟨?_, List.ne_nil_of_mem hrow⟩
    rw [← status_of_mem_rowsOf hrow]
    exact of_decide_eq_true hforbidden
  · rintro ⟨hstatus, hne⟩
    obtain ⟨row, hrow⟩ := List.exists_mem_of_ne_nil _ hne
    refine ⟨row, hrow, decide_eq_true ?_⟩
    rw [status_of_mem_rowsOf hrow, hstatus]

/-- Disallowed licenses have forbidden rows, and unknown ones have them if they are denied. -/
theorem exists_forbidden_rows_iff {r : Report}
    (h : ∀ fate, ∀ p ∈ (r.groups fate).pairs, p.2 ≠ []) (policy : UnknownPolicy)
    (showAll : Bool) :
    (∃ row ∈ r.rows policy showAll, row.isForbidden = true) ↔
      r.disallowed.isEmpty = false ∨ policy = .deny ∧ r.unknown.isEmpty = false := by
  have hallowed : ¬ ∃ row ∈ (if showAll then rowsOf "✅ Allowed" r.allowed else []),
      row.isForbidden = true := by
    cases showAll
    · simp
    · rw [if_pos rfl, exists_forbidden_rowsOf_iff (g := r.allowed) (h .allowed)]
      simp
  have hdisallowed : ("🚫 Disallowed".toList.head? = some '🚫') := rfl
  have hunknown : (unknownStatus policy).toList.head? = some '🚫' ↔ policy = .deny := by
    cases policy <;> simp [unknownStatus]
  simp only [rows, List.mem_append, or_and_right, exists_or]
  rw [exists_forbidden_rowsOf_iff (g := r.disallowed) (h .disallowed),
    exists_forbidden_rowsOf_iff (g := r.unknown) (h .unknown), hunknown]
  simp only [hallowed, hdisallowed, false_or, true_and]

theorem length_rows (r : Report) (policy : UnknownPolicy) (showAll : Bool) :
    (r.rows policy showAll).length =
      if showAll then r.summary.total else r.summary.disallowed + r.summary.unknown := by
  cases showAll <;> simp [rows, length_rowsOf, summary, Summary.total, Nat.add_assoc]

/-! ## The table -/

/-- Without rows there is a line that says so, and otherwise there is a table of them. -/
theorem table_cases (r : Report) (policy : UnknownPolicy) (showAll : Bool) :
    (r.rows policy showAll = [] ∧ r.SaysNoIssues policy showAll) ∨
      (r.rows policy showAll ≠ [] ∧ r.ShowsRows policy showAll) := by
  rw [SaysNoIssues, ShowsRows, table]
  cases hrows : r.rows policy showAll with
  | nil => exact .inl ⟨rfl, _, String.append_assoc ..⟩
  | cons row rows => exact .inr ⟨List.cons_ne_nil _ _, _, String.append_assoc ..⟩

/-- The line and the table exclude each other: what follows the summary starts differently. -/
theorem not_showsRows_of_saysNoIssues {r : Report} {policy : UnknownPolicy} {showAll : Bool}
    (h : r.SaysNoIssues policy showAll) : ¬ r.ShowsRows policy showAll := by
  obtain ⟨hints, hline⟩ := h
  rintro ⟨hints', htable⟩
  rw [hline, ← String.toList_inj] at htable
  simp only [String.toList_append, List.append_assoc, List.append_cancel_left_eq] at htable
  cases showAll <;> simp at htable

theorem saysNoIssues_iff (r : Report) (policy : UnknownPolicy) (showAll : Bool) :
    r.SaysNoIssues policy showAll ↔ r.rows policy showAll = [] := by
  rcases r.table_cases policy showAll with ⟨hrows, hsays⟩ | ⟨hrows, hshows⟩
  · exact iff_of_true hsays hrows
  · exact iff_of_false (fun h => not_showsRows_of_saysNoIssues h hshows) hrows

theorem showsRows_iff (r : Report) (policy : UnknownPolicy) (showAll : Bool) :
    r.ShowsRows policy showAll ↔ r.rows policy showAll ≠ [] := by
  rcases r.table_cases policy showAll with ⟨hrows, hsays⟩ | ⟨hrows, hshows⟩
  · exact iff_of_false (not_showsRows_of_saysNoIssues hsays) (not_not.2 hrows)
  · exact iff_of_true hshows hrows

/-- A report fails if a row that goes to the table is forbidden, whether or not the table shows all
dependencies. A table of the issues gives way to a line that says there are none if the summary
counts no disallowed and no unknown dependency, which is to say that the report does not fail even
if unknown licenses are denied. And the table has a row for every dependency that it is to show. -/
theorem fails_iff_forbidden_row (history : List Recording) (policy : UnknownPolicy)
    (showAll : Bool) :
    let r := ofHistory history
    (r.fails policy = true ↔ ∃ row ∈ r.rows policy showAll, row.isForbidden = true) ∧
      (r.SaysNoIssues policy false ↔ r.summary.disallowed = 0 ∧ r.summary.unknown = 0) ∧
      (r.SaysNoIssues policy false ↔ r.fails .deny = false) ∧
      (r.ShowsRows policy false ↔ ¬ r.SaysNoIssues policy false) ∧
      (r.rows policy true).length = r.summary.total ∧
      (r.rows policy false).length = r.summary.disallowed + r.summary.unknown := by
  intro r
  have hinhabited : ∀ fate, ∀ p ∈ (r.groups fate).pairs, p.2 ≠ [] :=
    (recorded_ofHistory history).inhabited
  clear_value r
  have hdisallowed := Groups.count_eq_zero_iff (g := r.disallowed) (hinhabited .disallowed)
  have hunknown := Groups.count_eq_zero_iff (g := r.unknown) (hinhabited .unknown)
  have hzero : r.SaysNoIssues policy false ↔ r.summary.disallowed = 0 ∧ r.summary.unknown = 0 := by
    rw [saysNoIssues_iff, ← List.length_eq_zero_iff, length_rows, if_neg Bool.false_ne_true,
      Nat.add_eq_zero_iff]
  refine ⟨?_, hzero, ?_, ?_, length_rows r policy true, length_rows r policy false⟩
  · rw [exists_forbidden_rows_iff hinhabited]
    simp [fails, hasDisallowed, hasUnknown]
  · rw [hzero]
    simp [summary, hdisallowed, hunknown, fails, hasDisallowed, hasUnknown]
  · rw [showsRows_iff, saysNoIssues_iff]

end LicenseAudit.Report
