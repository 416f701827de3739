import LicenseAudit.Proofs.Text.Trim
import LicenseAudit.Text.Lines
import Mathlib.Data.List.Basic

/-!
# The lines of a text

A text is broken into lines at its line feeds, and a carriage return right before a line feed goes
with it. The text behind the last line feed is a line too, unless nothing is there. The lines are read
in one pass over the characters; `Broken` says what comes out of it without the pass.

Results:
1. `lineInduction`: induction on a text, line by line.
2. `broken_lines`, `Broken.lines_eq`: the lines of a text are those it is broken into.
3. `lines_append`: behind a text of whole lines, the lines of another text follow.
4. `lines_flatMap_feed`: lines that are written one after another are read again.
5. `length_lines`: a text of whole lines has a line for each of its line feeds.
-/

namespace LicenseAudit.Text

/-! ## Definitions -/

/-- `Broken cs ls`: the text is broken into these lines.

* `feed`, `returnFeed`: a line ends at a line feed, with the carriage return before it if there is one.
* `rest`: the last line need not end at all. -/
inductive Broken : List Char → List (List Char) → Prop
  | nil : Broken [] []
  | rest {line : List Char} : line ≠ [] → '\n' ∉ line → Broken line [line]
  | feed {line cs : List Char} {ls : List (List Char)} : '\n' ∉ line → line.getLast? ≠ some '\r' →
      Broken cs ls → Broken (line ++ '\n' :: cs) (line :: ls)
  | returnFeed {line cs : List Char} {ls : List (List Char)} : '\n' ∉ line → Broken cs ls →
      Broken (line ++ '\r' :: '\n' :: cs) (line :: ls)

/-- A text of whole lines: it is empty or ends in a line feed. -/
def WholeLines (cs : List Char) : Prop := cs = [] ∨ cs.getLast? = some '\n'

/-! ## One line after another -/

/-- Induction on a text, line by line: it has no line feed, or it goes on behind its first line. -/
@[elab_as_elim]
theorem lineInduction {motive : List Char → Prop}
    (rest : ∀ {cs : List Char}, '\n' ∉ cs → motive cs)
    (feed : ∀ {line cs : List Char}, '\n' ∉ line → motive cs → motive (line ++ '\n' :: cs))
    (cs : List Char) : motive cs := by
  induction hn : cs.length using Nat.strong_induction_on generalizing cs with
  | _ n ih =>
    subst hn
    by_cases hfeed : '\n' ∈ cs
    · obtain ⟨line, cs, rfl, hline⟩ := List.eq_append_cons_of_mem hfeed
      exact feed hline (ih _ (by simp; omega) cs rfl)
    · exact rest hfeed

theorem linesFrom_append_feed {line : List Char} (h : '\n' ∉ line) (start cs : List Char) :
    linesFrom start (line ++ '\n' :: cs) = dropReturn (start.reverse ++ line) :: lines cs := by
  induction line generalizing start with
  | nil => rw [List.nil_append, linesFrom, if_pos rfl, List.append_nil, lines]
  | cons c line ih =>
    rw [List.mem_cons, not_or] at h
    rw [List.cons_append, linesFrom, if_neg (Ne.symm h.1), ih h.2]
    simp

theorem lines_append_feed {line : List Char} (h : '\n' ∉ line) (cs : List Char) :
    lines (line ++ '\n' :: cs) = dropReturn line :: lines cs :=
  linesFrom_append_feed h [] cs

theorem dropReturn_concat (line : List Char) : dropReturn (line ++ ['\r']) = line := by
  simp [dropReturn]

theorem dropReturn_of_getLast?_ne {line : List Char} (h : line.getLast? ≠ some '\r') :
    dropReturn line = line := if_neg h

/-- The carriage return of a line break is a blank, so it does not change the trimmed line. -/
theorem trim_dropReturn (line : List Char) : trim (dropReturn line) = trim line := by
  by_cases h : line.getLast? = some '\r'
  · obtain ⟨start, rfl⟩ := List.getLast?_eq_some_iff.1 h
    rw [dropReturn_concat]
    exact (trim_pad (a := []) rfl (b := ['\r']) rfl start).symm
  · rw [dropReturn_of_getLast?_ne h]

theorem Broken.lines_eq {cs : List Char} {ls : List (List Char)} (h : Broken cs ls) :
    lines cs = ls := by
  induction h with
  | nil => rfl
  | rest hne hfeed => exact lines_of_no_feed hfeed hne
  | feed hfeed hreturn _ ih => rw [lines_append_feed hfeed, dropReturn_of_getLast?_ne hreturn, ih]
  | @returnFeed line cs _ hfeed _ ih =>
    have hline : '\n' ∉ line ++ ['\r'] := by simpa using hfeed
    have := lines_append_feed hline cs
    rwa [List.append_assoc, List.singleton_append, dropReturn_concat, ih] at this

theorem broken_lines (cs : List Char) : Broken cs (lines cs) := by
  induction cs using lineInduction with
  | @rest cs hfeed =>
    cases cs with
    | nil => exact .nil
    | cons c cs =>
      rw [lines_of_no_feed hfeed (List.cons_ne_nil c cs)]
      exact .rest (List.cons_ne_nil c cs) hfeed
  | @feed line cs hline ih =>
    rw [lines_append_feed hline]
    by_cases hreturn : line.getLast? = some '\r'
    · obtain ⟨start, rfl⟩ := List.getLast?_eq_some_iff.1 hreturn
      rw [dropReturn_concat, List.append_assoc, List.singleton_append]
      exact .returnFeed (fun h => hline (List.mem_append_left _ h)) ih
    · rw [dropReturn_of_getLast?_ne hreturn]
      exact .feed hline hreturn ih

/-- The lines of a text have no other characters than the text. -/
theorem mem_of_mem_lines {line cs : List Char} (h : line ∈ lines cs) {c : Char} (hc : c ∈ line) :
    c ∈ cs := by
  have hb := broken_lines cs
  generalize lines cs = ls at h hb
  induction hb with
  | nil => cases h
  | rest => rwa [← List.mem_singleton.1 h]
  | feed _ _ _ ih | returnFeed _ _ ih =>
    rcases List.mem_cons.1 h with rfl | h
    · exact List.mem_append_left _ hc
    · exact List.mem_append_right _ (by simp [ih h])

/-! ## Texts of whole lines -/

theorem WholeLines.eq_nil {cs : List Char} (h : WholeLines cs) (hfeed : '\n' ∉ cs) : cs = [] :=
  h.resolve_right fun hlast => hfeed (List.mem_of_getLast? hlast)

theorem WholeLines.of_append_feed {line cs : List Char} (h : WholeLines (line ++ '\n' :: cs)) :
    WholeLines cs := by
  cases cs with
  | nil => exact .inl rfl
  | cons c cs =>
    rcases h with h | h
    · simp at h
    · rw [List.getLast?_append_cons, List.getLast?_cons_cons] at h
      exact .inr h

/-- Behind a text of whole lines, the lines of another text follow. -/
theorem lines_append {a : List Char} (h : WholeLines a) (b : List Char) :
    lines (a ++ b) = lines a ++ lines b := by
  induction a using lineInduction with
  | rest hfeed =>
    obtain rfl := h.eq_nil hfeed
    rfl
  | feed hline ih =>
    rw [List.append_assoc, List.cons_append, lines_append_feed hline, lines_append_feed hline,
      ih h.of_append_feed, List.cons_append]

/-- Lines that are written one after another are read again, and what is behind them is read on. -/
theorem lines_flatMap_feed {ls : List (List Char)}
    (h : ∀ line ∈ ls, '\n' ∉ line ∧ line.getLast? ≠ some '\r') (cs : List Char) :
    lines (ls.flatMap (· ++ ['\n']) ++ cs) = ls ++ lines cs := by
  refine Broken.lines_eq ?_
  induction ls with
  | nil => exact broken_lines cs
  | cons line ls ih =>
    obtain ⟨⟨hfeed, hreturn⟩, hls⟩ := List.forall_mem_cons.1 h
    have := Broken.feed hfeed hreturn (ih hls)
    simpa using this

/-- A text of whole lines has a line for each of its line feeds. -/
theorem length_lines {a : List Char} (h : WholeLines a) : (lines a).length = a.count '\n' := by
  induction a using lineInduction with
  | rest hfeed =>
    obtain rfl := h.eq_nil hfeed
    rfl
  | feed hline ih =>
    rw [lines_append_feed hline, List.length_cons, ih h.of_append_feed, List.count_append,
      List.count_cons_self, List.count_eq_zero_of_not_mem hline, Nat.zero_add]

end LicenseAudit.Text
