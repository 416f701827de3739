/-!
# Lines

A line ends at a line feed, and a carriage return right before that line feed belongs to the break.
A text that ends with a break has no further line after it.

Main statement: a text without line feeds is its own only line (`lines_of_no_feed`).
-/

namespace LicenseAudit.Text

/-- The line without the carriage return that belongs to its break. -/
def dropReturn (line : List Char) : List Char :=
  if line.getLast? = some '\r' then line.dropLast else line

/-- The lines of a text; `line` holds the characters of the current one, last character first. -/
def linesFrom (line : List Char) : List Char → List (List Char)
  | [] => if line.isEmpty then [] else [line.reverse]
  | c :: cs =>
    if c = '\n' then dropReturn line.reverse :: linesFrom [] cs else linesFrom (c :: line) cs

/-- The lines of a text. -/
def lines (cs : List Char) : List (List Char) := linesFrom [] cs

theorem linesFrom_of_no_feed {cs : List Char} (h : '\n' ∉ cs) (line : List Char) :
    linesFrom line cs = if line.isEmpty && cs.isEmpty then [] else [line.reverse ++ cs] := by
  induction cs generalizing line with
  | nil => cases line <;> simp [linesFrom]
  | cons c cs ih =>
    simp only [List.mem_cons, not_or] at h
    rw [linesFrom, if_neg (Ne.symm h.1), ih h.2]
    simp

theorem lines_of_no_feed {cs : List Char} (h : '\n' ∉ cs) (hne : cs ≠ []) : lines cs = [cs] := by
  cases cs with
  | nil => exact absurd rfl hne
  | cons c cs => simp [lines, linesFrom_of_no_feed h]

end LicenseAudit.Text
