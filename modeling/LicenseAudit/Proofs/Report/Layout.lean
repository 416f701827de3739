import LicenseAudit.Proofs.Listing
import LicenseAudit.Proofs.Report.Grouping
import LicenseAudit.Proofs.Text.Lines
import LicenseAudit.Report.Table
import Mathlib.Data.List.Forall2

/-!
# The lines of the table

What a reader sees of the table is its lines. Between the rule below the column titles and the line
that closes the table there is one line for each dependency that is shown, class by class. All of
them are equally wide: a cell holds its text and spaces, or the beginning of its text and an
ellipsis. Names may have any characters but line feeds, those of the frame included; no line of a
row is taken for a part of the frame.

Results:
1. `cell_pad_truncate`: a text that is cut and padded is a cell.
2. `rows_eq_shown`: the rows of the table are the dependencies that are to be shown.
3. `shows_text`: the line of a row shows it.
4. `between_append`: what stands between the two rules, if no other line is taken for one.
5. `linesOf_table`: the lines of a text with a table.
6. `table_shows_rows`: between the rules of the table there is a line for each row and nothing else.
-/

namespace LicenseAudit

/-- Going through the pairs of some groups is going through their licenses and looking them up. -/
theorem Groups.flatMap_pairs {γ : Type} (g : Groups) (f : String → List String → List γ) :
    (g.pairs.flatMap fun p => f p.1 p.2) =
      g.keys.flatMap fun license => f license ((g.find? license).getD []) := by
  rw [Ordered.keys, List.flatMap_map]
  refine List.flatMap_congr fun p hp => ?_
  rw [Ordered.mem_pairs_iff.1 hp, Option.getD_some]

namespace Report

/-! ## Definitions -/

/-- A text of spaces. -/
def spaces (n : Nat) : String := String.ofList (List.replicate n ' ')

/-- `Cell width text cell`: the cell shows this text.

* `whole`: a text that fits is shown with spaces behind it.
* `cut`: of a longer one as many whole characters are kept as leave room for the ellipsis. -/
inductive Cell (width : Nat) (text : String) : String → Prop
  | whole : text.length ≤ width → Cell width text (text ++ spaces (width - text.length))
  | cut {kept rest : String} : width < text.length → text = kept ++ rest → kept.length + 1 = width →
      Cell width text (kept ++ "…")

/-- The line shows this row: three cells between bars, of which the mark is never cut. -/
inductive Shows (row : Row) : String → Prop
  | cells {dependency license : String} : Cell 20 row.dependency dependency →
      Cell 24 row.license license → row.status.length ≤ 12 →
      Shows row ("│ " ++ dependency ++ " │ " ++ license ++ " │ " ++
        (row.status ++ spaces (12 - row.status.length)) ++ " │")

/-- The mark of a class. -/
def mark (policy : UnknownPolicy) : Fate → String
  | .allowed => "✅ Allowed"
  | .disallowed => "🚫 Disallowed"
  | .unknown => unknownStatus policy

/-- The dependencies that the table is to show: class by class, then by the licenses of the class,
then as they stand in the list of the license. -/
def shown (r : Report) (policy : UnknownPolicy) (showAll : Bool) : List Row :=
  (if showAll then [Fate.allowed, .disallowed, .unknown] else [.disallowed, .unknown]).flatMap
    fun fate => (r.groups fate).keys.flatMap fun license =>
      (((r.groups fate).find? license).getD []).map fun dependency =>
        ⟨dependency, license, mark policy fate⟩

/-- The lines of a text. -/
def linesOf (text : String) : List String := (Text.lines text.toList).map String.ofList

/-- The rule below the column titles. -/
def headRule : String := "├──────────────────────┼──────────────────────────┼───────────────┤"

/-- The line that closes the table. -/
def footRule : String := "└──────────────────────┴──────────────────────────┴───────────────┘"

/-- One of the two lines that the rows stand between. -/
def IsRule (line : String) : Prop := line = headRule ∨ line = footRule

/-- What stands between the two rules. -/
def between (lines : List String) : List String :=
  ((lines.dropWhile (· ≠ headRule)).drop 1).takeWhile (· ≠ footRule)

/-- No license and no dependency of the report has a line feed. -/
def Unbroken (r : Report) : Prop :=
  ∀ fate, ∀ p ∈ (r.groups fate).pairs,
    '\n' ∉ p.1.toList ∧ ∀ dependency ∈ p.2, '\n' ∉ dependency.toList

/-! ## Cells -/

theorem length_spaces (n : Nat) : (spaces n).length = n := by simp [spaces]

theorem Cell.length_eq {width : Nat} {text cell : String} (h : Cell width text cell) :
    cell.length = width := by
  cases h with
  | whole hle =>
    rw [String.length_append, length_spaces]
    omega
  | cut _ _ hkept =>
    rw [String.length_append]
    exact hkept

theorem Shows.length_eq {row : Row} {line : String} (h : Shows row line) : line.length = 66 := by
  cases h with
  | cells hdependency hlicense hstatus =>
    have hbar : "│ ".length = 2 := rfl
    have hbars : " │ ".length = 3 := rfl
    have hend : " │".length = 2 := rfl
    simp only [String.length_append, hdependency.length_eq, hlicense.length_eq, length_spaces, hbar,
      hbars, hend]
    omega

theorem cell_pad_truncate {width : Nat} (hw : 0 < width) (text : String) :
    Cell width text (String.ofList (pad width (truncate width text.toList))) := by
  have hlen : text.toList.length = text.length := String.length_toList
  rcases Nat.lt_or_ge width text.length with h | h
  · have hlong : width < text.toList.length := by rwa [hlen]
    have hfull : (truncate width text.toList).length = width := length_truncate hw hlong
    have hcell : String.ofList (pad width (truncate width text.toList)) =
        String.ofList (text.toList.take (width - 1)) ++ "…" := by
      unfold pad
      rw [hfull, Nat.sub_self, List.replicate_zero, List.append_nil, truncate,
        if_neg (Nat.not_le.2 hlong), String.ofList_append]
    have hsplit : text = String.ofList (text.toList.take (width - 1)) ++
        String.ofList (text.toList.drop (width - 1)) := by
      rw [← String.ofList_append, List.take_append_drop, String.ofList_toList]
    have hkept : (String.ofList (text.toList.take (width - 1))).length + 1 = width := by
      rw [String.length_ofList, List.length_take]
      omega
    rw [hcell]
    exact .cut h hsplit hkept
  · have hcell : String.ofList (pad width (truncate width text.toList)) =
        text ++ spaces (width - text.length) := by
      unfold pad truncate spaces
      rw [if_pos (hlen ▸ h), hlen, String.ofList_append, String.ofList_toList]
    rw [hcell]
    exact .whole h

/-! ## Rows -/

theorem rowsOf_eq (status : String) (g : Groups) :
    rowsOf status g = g.keys.flatMap fun license =>
      ((g.find? license).getD []).map fun dependency => ⟨dependency, license, status⟩ :=
  g.flatMap_pairs fun license ds => ds.map fun dependency => Row.mk dependency license status

theorem rows_eq_shown (r : Report) (policy : UnknownPolicy) (showAll : Bool) :
    r.rows policy showAll = r.shown policy showAll := by
  rw [rows, shown, rowsOf_eq, rowsOf_eq, rowsOf_eq]
  cases showAll <;> simp [groups, mark]

theorem exists_of_mem_shown {r : Report} {policy : UnknownPolicy} {showAll : Bool} {row : Row}
    (h : row ∈ r.shown policy showAll) : ∃ fate, ∃ p ∈ (r.groups fate).pairs,
      row.license = p.1 ∧ row.dependency ∈ p.2 ∧ row.status = mark policy fate := by
  obtain ⟨fate, -, h⟩ := List.mem_flatMap.1 h
  obtain ⟨license, -, h⟩ := List.mem_flatMap.1 h
  obtain ⟨dependency, hdependency, rfl⟩ := List.mem_map.1 h
  cases hds : (r.groups fate).find? license with
  | none =>
    rw [hds] at hdependency
    exact absurd hdependency List.not_mem_nil
  | some ds =>
    rw [hds] at hdependency
    exact ⟨fate, (license, ds), Ordered.mem_pairs_iff.2 hds, rfl, hdependency, rfl⟩

theorem length_mark_le (policy : UnknownPolicy) (fate : Fate) : (mark policy fate).length ≤ 12 := by
  cases fate <;> cases policy <;> decide

/-- The line of a row without its line feed. -/
def Row.text (row : Row) : String :=
  "│ " ++ String.ofList (pad 20 (truncate 20 row.dependency.toList)) ++ " │ " ++
    String.ofList (pad 24 (truncate 24 row.license.toList)) ++ " │ " ++
    String.ofList (pad 12 row.status.toList) ++ " │"

theorem Row.toList_line (row : Row) : row.line.toList = row.text.toList ++ ['\n'] := by
  simp [Row.line, Row.text]

theorem head?_text (row : Row) : row.text.toList.head? = some '│' := by
  unfold Row.text
  simp

theorem feed_notMem_mark (policy : UnknownPolicy) (fate : Fate) :
    '\n' ∉ (mark policy fate).toList := by
  cases fate <;> cases policy <;> simp [mark, unknownStatus]

theorem feed_notMem_pad {text : List Char} (h : '\n' ∉ text) (width : Nat) :
    '\n' ∉ pad width text := by
  unfold pad
  rw [List.mem_append, not_or]
  exact ⟨h, fun hspace => absurd (List.eq_of_mem_replicate hspace) (by decide)⟩

theorem feed_notMem_truncate {text : List Char} (h : '\n' ∉ text) (width : Nat) :
    '\n' ∉ truncate width text := by
  unfold truncate
  split
  · exact h
  · rw [List.mem_append, not_or]
    exact ⟨fun hmem => h (List.mem_of_mem_take hmem), by decide⟩

theorem feed_notMem_text {row : Row} (hdependency : '\n' ∉ row.dependency.toList)
    (hlicense : '\n' ∉ row.license.toList) (hstatus : '\n' ∉ row.status.toList) :
    '\n' ∉ row.text.toList := by
  have hfirst := feed_notMem_pad (feed_notMem_truncate hdependency 20) 20
  have hsecond := feed_notMem_pad (feed_notMem_truncate hlicense 24) 24
  have hthird := feed_notMem_pad hstatus 12
  unfold Row.text
  simp [hfirst, hsecond, hthird]

theorem shows_text {row : Row} (h : row.status.length ≤ 12) : Shows row row.text := by
  have hstatus : String.ofList (pad 12 row.status.toList) =
      row.status ++ spaces (12 - row.status.length) := by
    rw [pad, String.ofList_append, String.ofList_toList, String.length_toList, spaces]
  rw [Row.text, hstatus]
  exact .cells (cell_pad_truncate (by decide) _) (cell_pad_truncate (by decide) _) h

/-! ## Lines -/

theorem linesOf_append {a : String} (h : Text.WholeLines a.toList) (b : String) :
    linesOf (a ++ b) = linesOf a ++ linesOf b := by
  rw [linesOf, String.toList_append, Text.lines_append h, List.map_append]
  rfl

/-- A line with a character that the text does not have is none of its lines. -/
theorem notMem_linesOf {line text : String} {c : Char} (hline : c ∈ line.toList)
    (htext : c ∉ text.toList) : line ∉ linesOf text := by
  intro h
  obtain ⟨l, hl, rfl⟩ := List.mem_map.1 h
  rw [String.toList_ofList] at hline
  exact htext (Text.mem_of_mem_lines hl hline)

/-- The bar at the end of a row keeps a carriage return of its texts away from the line feed. -/
theorem linesOf_rows {rows : List Row} (h : ∀ row ∈ rows, '\n' ∉ row.text.toList) (rest : String) :
    linesOf (String.join (rows.map Row.line) ++ rest) = rows.map Row.text ++ linesOf rest := by
  have hjoin : (String.join (rows.map Row.line)).toList =
      (rows.map fun row => row.text.toList).flatMap (· ++ ['\n']) := by
    simp [String.toList_join, List.flatMap_map, Row.toList_line]
  have hlines : ∀ line ∈ rows.map fun row => row.text.toList,
      '\n' ∉ line ∧ line.getLast? ≠ some '\r' := by
    intro line hline
    obtain ⟨row, hrow, rfl⟩ := List.mem_map.1 hline
    have hlast : row.text.toList.getLast? = some '│' := by
      rw [Row.text, String.toList_append, List.getLast?_append]
      rfl
    exact ⟨h row hrow, by rw [hlast]; decide⟩
  rw [linesOf, String.toList_append, hjoin, Text.lines_flatMap_feed hlines, List.map_append,
    List.map_map]
  refine congrArg (· ++ _) (List.map_congr_left fun row _ => ?_)
  exact String.ofList_toList

/-! ## The text -/

/-- The line above the table. -/
def heading (showAll : Bool) : String :=
  if showAll then "📦 All Dependencies:\n" else "⚠️  Issues Found:\n"

/-- What the text says behind the table. -/
def hints (r : Report) (showAll : Bool) : String :=
  (if !showAll && 0 < r.summary.allowed then
    "\n💡 Run with --all to see all " ++ Nat.repr r.summary.total ++ " dependencies\n"
  else "") ++
  if r.hasUnknown then
    "\n💡 Record a decision with 'license-checker allow <LICENSE>' or " ++
      "'license-checker deny <LICENSE>'\n"
  else ""

theorem table_of_no_rows {r : Report} {policy : UnknownPolicy} {showAll : Bool}
    (h : r.rows policy showAll = []) :
    r.table policy showAll =
      summaryLines r.summary ++ "✅ No issues found!\n" ++ hints r showAll := by
  simp only [table, h, hints, String.append_assoc]

theorem table_of_rows {r : Report} {policy : UnknownPolicy} {showAll : Bool}
    (h : r.rows policy showAll ≠ []) :
    r.table policy showAll =
      summaryLines r.summary ++ heading showAll ++
        (tableHead ++ (String.join ((r.rows policy showAll).map Row.line) ++
          (tableFoot ++ hints r showAll))) := by
  rw [table]
  cases hrows : r.rows policy showAll with
  | nil => exact absurd hrows h
  | cons row rows => simp only [tableOf, hints, heading, String.append_assoc]

/-! The rules are made of dashes, and no dash stands outside the table. -/

theorem dash_notMem_toDigits (n : Nat) : '─' ∉ Nat.toDigits 10 n := by
  intro h
  exact absurd (Nat.isDigit_of_mem_toDigits (by decide) (by decide) h) (by decide)

theorem dash_notMem_summaryLines (s : Summary) : '─' ∉ (summaryLines s).toList := by
  unfold summaryLines
  simp only [String.toList_append, List.mem_append, Nat.toList_repr, dash_notMem_toDigits, or_false]
  simp

theorem dash_notMem_heading (showAll : Bool) : '─' ∉ (heading showAll).toList := by
  cases showAll <;> simp [heading]

theorem dash_notMem_hints (r : Report) (showAll : Bool) : '─' ∉ (hints r showAll).toList := by
  rw [hints, String.toList_append, List.mem_append, not_or]
  constructor
  · split <;> simp [dash_notMem_toDigits]
  · split <;> simp

/-! ## The frame -/

/-- A rule of the frame: dashes for the three columns, and what joins them. -/
def rule (left middle right : Char) : List Char :=
  left :: (List.replicate 22 '─' ++ middle ::
    (List.replicate 26 '─' ++ middle :: (List.replicate 15 '─' ++ [right])))

/-- The column titles. -/
def titles : List Char :=
  ['│', ' '] ++ pad 20 ['D', 'e', 'p', 'e', 'n', 'd', 'e', 'n', 'c', 'y'] ++ [' ', '│', ' '] ++
    pad 24 ['L', 'i', 'c', 'e', 'n', 's', 'e'] ++ [' ', '│', ' '] ++
    pad 13 ['S', 't', 'a', 't', 'u', 's'] ++ [' ', '│']

set_option maxRecDepth 4000 in
theorem toList_headRule : headRule.toList = rule '├' '┼' '┤' := by
  rw [show headRule = String.ofList (rule '├' '┼' '┤') from rfl, String.toList_ofList]

set_option maxRecDepth 4000 in
theorem toList_footRule : footRule.toList = rule '└' '┴' '┘' := by
  rw [show footRule = String.ofList (rule '└' '┴' '┘') from rfl, String.toList_ofList]

set_option maxRecDepth 4000 in
theorem toList_tableHead :
    tableHead.toList = [rule '┌' '┬' '┐', titles, rule '├' '┼' '┤'].flatMap (· ++ ['\n']) := by
  unfold tableHead
  rw [show "┌──────────────────────┬──────────────────────────┬───────────────┐\n" =
      String.ofList (rule '┌' '┬' '┐' ++ ['\n']) from rfl,
    show "│ Dependency           │ License                  │ Status        │\n" =
      String.ofList (titles ++ ['\n']) from rfl,
    show "├──────────────────────┼──────────────────────────┼───────────────┤\n" =
      String.ofList (rule '├' '┼' '┤' ++ ['\n']) from rfl]
  simp only [String.toList_append, String.toList_ofList, List.flatMap_cons, List.flatMap_nil,
    List.append_nil, List.append_assoc]

set_option maxRecDepth 4000 in
theorem toList_tableFoot : tableFoot.toList = [rule '└' '┴' '┘'].flatMap (· ++ ['\n']) := by
  unfold tableFoot
  rw [show "└──────────────────────┴──────────────────────────┴───────────────┘\n" =
      String.ofList (rule '└' '┴' '┘' ++ ['\n']) from rfl]
  simp only [String.toList_ofList, List.flatMap_cons, List.flatMap_nil, List.append_nil]

theorem linesOf_tableHead (rest : String) : linesOf (tableHead ++ rest) =
    [String.ofList (rule '┌' '┬' '┐'), String.ofList titles, headRule] ++ linesOf rest := by
  rw [linesOf, String.toList_append, toList_tableHead,
    Text.lines_flatMap_feed (by decide), ← toList_headRule]
  simp [linesOf]

theorem linesOf_tableFoot (rest : String) :
    linesOf (tableFoot ++ rest) = footRule :: linesOf rest := by
  rw [linesOf, String.toList_append, toList_tableFoot,
    Text.lines_flatMap_feed (by decide), ← toList_footRule]
  simp [linesOf]

/-! ## The two rules -/

theorem IsRule.dash_mem {line : String} (h : IsRule line) : '─' ∈ line.toList := by
  rcases h with rfl | rfl
  · rw [toList_headRule]
    decide
  · rw [toList_footRule]
    decide

theorem headRule_ne_footRule : headRule ≠ footRule := by
  intro heq
  have := congrArg (fun line : String => line.toList.head?) heq
  simp only [toList_headRule, toList_footRule] at this
  exact absurd this (by decide)

/-- No other line of the table starts as a rule does. -/
theorem IsRule.ne {line other : String} (h : IsRule line)
    (hother : other.toList.head? = some '┌' ∨ other.toList.head? = some '│') : line ≠ other := by
  rintro rfl
  rcases h with rfl | rfl
  · rw [toList_headRule] at hother
    exact absurd hother (by decide)
  · rw [toList_footRule] at hother
    exact absurd hother (by decide)

theorem IsRule.notMem_rows {line : String} (h : IsRule line) (rows : List Row) :
    line ∉ rows.map Row.text := by
  intro hmem
  obtain ⟨row, -, heq⟩ := List.mem_map.1 hmem
  exact h.ne (.inr (head?_text row)) heq.symm

theorem IsRule.notMem_above {line : String} (h : IsRule line) (s : Summary) (showAll : Bool) :
    line ∉ linesOf (summaryLines s ++ heading showAll) ++
      [String.ofList (rule '┌' '┬' '┐'), String.ofList titles] := by
  have htext : '─' ∉ (summaryLines s ++ heading showAll).toList := by
    rw [String.toList_append, List.mem_append, not_or]
    exact ⟨dash_notMem_summaryLines s, dash_notMem_heading showAll⟩
  have htop : line ≠ String.ofList (rule '┌' '┬' '┐') :=
    h.ne (.inl (by rw [String.toList_ofList]; rfl))
  have htitles : line ≠ String.ofList titles := h.ne (.inr (by rw [String.toList_ofList]; rfl))
  simp [notMem_linesOf h.dash_mem htext, htop, htitles]

/-- If neither rule occurs elsewhere, each occurs once, and what is between them is found. -/
theorem between_append {above body below : List String}
    (h : ∀ line, IsRule line → line ∉ above ∧ line ∉ body ∧ line ∉ below) :
    let lines := above ++ headRule :: (body ++ footRule :: below)
    between lines = body ∧ lines.count headRule = 1 ∧ lines.count footRule = 1 := by
  obtain ⟨hheadAbove, hheadBody, hheadBelow⟩ := h headRule (.inl rfl)
  obtain ⟨hfootAbove, hfootBody, hfootBelow⟩ := h footRule (.inr rfl)
  refine ⟨?_, ?_, ?_⟩
  · have habove : ∀ line ∈ above, decide (line ≠ headRule) = true := by
      intro line hline
      exact decide_eq_true fun heq => hheadAbove (heq ▸ hline)
    have hbody : ∀ line ∈ body, decide (line ≠ footRule) = true := by
      intro line hline
      exact decide_eq_true fun heq => hfootBody (heq ▸ hline)
    unfold between
    rw [List.dropWhile_append_of_pos habove, List.dropWhile_cons_of_neg (by simp), List.drop_one,
      List.tail_cons, List.takeWhile_append_of_pos hbody, List.takeWhile_cons_of_neg (by simp),
      List.append_nil]
  · rw [List.count_append, List.count_eq_zero_of_not_mem hheadAbove, List.count_cons_self,
      List.count_append, List.count_eq_zero_of_not_mem hheadBody,
      List.count_cons_of_ne headRule_ne_footRule.symm, List.count_eq_zero_of_not_mem hheadBelow]
  · rw [List.count_append, List.count_eq_zero_of_not_mem hfootAbove,
      List.count_cons_of_ne headRule_ne_footRule, List.count_append,
      List.count_eq_zero_of_not_mem hfootBody, List.count_cons_self,
      List.count_eq_zero_of_not_mem hfootBelow]

theorem between_of_notMem {lines : List String} (h : headRule ∉ lines) : between lines = [] := by
  have hall : lines.dropWhile (fun line => decide (line ≠ headRule)) = [] := by
    rw [List.dropWhile_eq_nil_iff]
    intro line hline
    exact decide_eq_true fun heq => h (heq ▸ hline)
  rw [between, hall]
  rfl

/-! ## The table -/

theorem linesOf_table {r : Report} (h : r.Unbroken) {policy : UnknownPolicy} {showAll : Bool}
    (hrows : r.shown policy showAll ≠ []) :
    linesOf (r.table policy showAll) =
      linesOf (summaryLines r.summary ++ heading showAll) ++
        [String.ofList (rule '┌' '┬' '┐'), String.ofList titles] ++
        headRule :: ((r.shown policy showAll).map Row.text ++
          footRule :: linesOf (hints r showAll)) := by
  have hwhole : Text.WholeLines (summaryLines r.summary ++ heading showAll).toList := by
    refine .inr ?_
    rw [String.toList_append, List.getLast?_append]
    cases showAll <;> simp [heading]
  have hfeed : ∀ row ∈ r.shown policy showAll, '\n' ∉ row.text.toList := by
    intro row hrow
    obtain ⟨fate, p, hp, hlicense, hdependency, hstatus⟩ := exists_of_mem_shown hrow
    obtain ⟨hkey, hlist⟩ := h fate p hp
    exact feed_notMem_text (hlist _ hdependency) (hlicense ▸ hkey)
      (hstatus ▸ feed_notMem_mark policy fate)
  rw [table_of_rows (by rwa [rows_eq_shown]), rows_eq_shown, linesOf_append hwhole,
    linesOf_tableHead, linesOf_rows hfeed, linesOf_tableFoot]
  simp

theorem dash_notMem_table {r : Report} {policy : UnknownPolicy} {showAll : Bool}
    (h : r.rows policy showAll = []) : '─' ∉ (r.table policy showAll).toList := by
  rw [table_of_no_rows h, String.toList_append, String.toList_append]
  simp [dash_notMem_summaryLines, dash_notMem_hints]

/-- Between the rule below the column titles and the line that closes the table there is one line
for each dependency that is to be shown, in order. It shows the dependency, its license and the mark
of its class in 66 characters. A table has each of the two rules once; with nothing to show there is
none. -/
theorem table_shows_rows {r : Report} (h : r.Unbroken) (policy : UnknownPolicy) (showAll : Bool) :
    let rows := r.shown policy showAll
    let lines := linesOf (r.table policy showAll)
    List.Forall₂ Shows rows (between lines) ∧
      (∀ line ∈ between lines, line.length = 66) ∧
      lines.count headRule = (if rows = [] then 0 else 1) ∧
      lines.count footRule = if rows = [] then 0 else 1 := by
  intro rows lines
  rcases eq_or_ne rows [] with hrows | hrows
  · have hdash : '─' ∉ (r.table policy showAll).toList :=
      dash_notMem_table (by rw [rows_eq_shown]; exact hrows)
    have hno : ∀ line, IsRule line → line ∉ lines :=
      fun line hline => notMem_linesOf hline.dash_mem hdash
    have hhead := hno headRule (.inl rfl)
    rw [between_of_notMem hhead, hrows, if_pos rfl]
    exact ⟨.nil, fun _ hline => absurd hline List.not_mem_nil,
      List.count_eq_zero_of_not_mem hhead, List.count_eq_zero_of_not_mem (hno footRule (.inr rfl))⟩
  · have hlines : lines = _ := linesOf_table h hrows
    obtain ⟨hbetween, hhead, hfoot⟩ := between_append fun line hline =>
      ⟨hline.notMem_above r.summary showAll, hline.notMem_rows rows,
        notMem_linesOf hline.dash_mem (dash_notMem_hints r showAll)⟩
    have hshows : ∀ row ∈ rows, Shows row row.text := by
      intro row hrow
      obtain ⟨fate, -, -, -, -, hstatus⟩ := exists_of_mem_shown hrow
      exact shows_text (hstatus ▸ length_mark_le policy fate)
    rw [hlines, hbetween, if_neg hrows]
    refine ⟨?_, ?_, hhead, hfoot⟩
    · rw [List.forall₂_map_right_iff, List.forall₂_same]
      exact hshows
    · intro line hline
      obtain ⟨row, hrow, rfl⟩ := List.mem_map.1 hline
      exact (hshows row hrow).length_eq

/-- A dependency of twenty characters just fits, and longer names are cut. -/
theorem table_shows_rows_cut :
    let r := (empty.recordUnknown "Lizenz für größte Überraschungen" "größenüberprüfung-rs")
      |>.recordDisallowed "GPL-3.0" "überraschungsbibliothek"
    r.Unbroken ∧
      List.Forall₂ Shows
        [⟨"überraschungsbibliothek", "GPL-3.0", "🚫 Disallowed"⟩,
          ⟨"größenüberprüfung-rs", "Lizenz für größte Überraschungen", "🚫 Unknown"⟩]
        (between (linesOf (r.table .deny false))) ∧
      (linesOf (r.table .deny false)).count headRule = 1 := by
  intro r
  have hunbroken : r.Unbroken := by
    intro fate
    cases fate <;> decide
  obtain ⟨hshows, -, hhead, -⟩ := table_shows_rows hunbroken .deny false
  exact ⟨hunbroken, hshows, hhead⟩

end Report

end LicenseAudit
