import LicenseAudit.Proofs.Expr.Form
import Mathlib.Data.Nat.Find

/-!
# The limit on depth

A part of an expression is read at the depth where it stands, and all that the depth does is to leave
fewer levels. A text has one answer, and a number of levels that it needs for it: with more levels
than these it gives the answer, and otherwise it is too deep. So what is read at two depths has the
same answer twice, or else the deeper one is too deep. A text with several faults is no exception:
the limit may hide the fault that is reported without it, but never brings up another one.

Results:
1. `parseFrom_of_le`, `parseFrom_of_lt`: each step of reading goes one level down, to the limit.
2. `exists_part_of_tooDeep`: an error about depth is that of a shorter text one level down.
3. `not_tooDeep_of_length_lt`: no text needs more levels than it has characters.
4. `exists_settles`: the answer of a text, and the levels that it needs.
5. `parseFrom_deeper`: what an answer at one depth says about the answers at others.
-/

namespace LicenseAudit.Expr

/-! ## Definitions -/

/-- Reads a text that stands `depth` levels below the root of an expression. -/
def parseFrom (depth : Nat) (cs : List Char) : Except ParseError Expr :=
  parseAt (maxDepth + 1 - depth) cs

/-- The text has this answer, and needs more than `needed` levels to give it. -/
structure Settles (cs : List Char) (needed : Nat) (answer : Except ParseError Expr) : Prop where
  not_tooDeep : ¬ TooDeep answer
  of_lt : ∀ levels, needed < levels → parseAt levels cs = answer
  of_le : ∀ levels, levels ≤ needed → TooDeep (parseAt levels cs)

/-! ## Counting depth -/

theorem parse_eq_parseFrom (text : String) : parse text = parseFrom 0 text.toList := rfl

theorem parseFrom_of_lt {depth : Nat} (h : maxDepth < depth) (cs : List Char) :
    parseFrom depth cs = .error (.here (.tooDeep maxDepth)) := by
  rw [parseFrom, Nat.sub_eq_zero_of_le h, parseAt_zero]

theorem parseFrom_of_le {depth : Nat} (h : depth ≤ maxDepth) (cs : List Char) :
    parseFrom depth cs = (form cs).read (parseFrom (depth + 1)) := by
  have hlevels : maxDepth + 1 - depth = (maxDepth + 1 - (depth + 1)) + 1 := by omega
  rw [parseFrom, hlevels, parseAt_succ]
  rfl

/-! ## Errors about depth -/

/-- What a token loses makes it shorter than the text it was cut from. -/
theorem length_unwrap_lt {a w b : List Char} (h : unwrap w ≠ a ++ w ++ b) :
    (unwrap w).length < (a ++ w ++ b).length := by
  simp only [List.length_append]
  obtain hwraps | ⟨-, heq⟩ := unwrap_cases w
  · have := hwraps.length_eq
    omega
  · have hne : ¬ (a = [] ∧ b = []) := by
      rintro ⟨rfl, rfl⟩
      exact h (by simpa using heq)
    rw [← List.length_eq_zero_iff, ← List.length_eq_zero_iff] at hne
    rw [heq]
    omega

theorem exists_part_of_tooDeep {n limit : Nat} {cs : List Char} {path : List Step}
    (h : parseAt (n + 1) cs = .error ⟨path, .tooDeep limit⟩) :
    ∃ part rest, part.length < cs.length ∧ parseAt n part = .error ⟨rest, .tooDeep limit⟩ := by
  rw [parseAt_succ, Form.read_eq_error] at h
  have hf := formOf_form cs
  generalize form cs = f at h hf
  cases hf with
  | blank | atom | blankToken | blankRight | dangling | unbalanced => cases h
  | inner _ _ _ _ hne => exact ⟨_, _, length_unwrap_lt hne, h⟩
  | negation =>
    obtain ⟨⟨p, f⟩, hop, heq⟩ := h
    cases heq
    exact ⟨_, _, by simp, hop⟩
  | binary =>
    obtain ⟨⟨p, f⟩, hl, heq⟩ | ⟨_, ⟨p, f⟩, -, hr, heq⟩ | ⟨_, _, -, -, -, heq⟩ := h
    · cases heq
      exact ⟨_, _, by simp; omega, hl⟩
    · cases heq
      exact ⟨_, _, by simp; omega, hr⟩
    · cases heq

/-- There is only one limit to report. -/
theorem limit_eq_of_parseAt {n limit : Nat} {cs : List Char} {path : List Step}
    (h : parseAt n cs = .error ⟨path, .tooDeep limit⟩) : limit = maxDepth := by
  induction n generalizing cs path with
  | zero =>
    cases h
    rfl
  | succ n ih =>
    obtain ⟨part, rest, -, hpart⟩ := exists_part_of_tooDeep h
    exact ih hpart

theorem not_tooDeep_of_length_lt {n : Nat} {cs : List Char} (h : cs.length < n) :
    ¬ TooDeep (parseAt n cs) := by
  induction n generalizing cs with
  | zero => exact absurd h (Nat.not_lt_zero _)
  | succ n ih =>
    rintro ⟨path, hpath⟩
    obtain ⟨part, rest, hlt, hpart⟩ := exists_part_of_tooDeep hpath
    exact ih (Nat.lt_of_lt_of_le hlt (Nat.le_of_lt_succ h)) ⟨rest, hpart⟩

/-! ## The answer of a text -/

/-- Every text has an answer, and needs no more levels for it than it has characters. -/
theorem exists_settles (cs : List Char) :
    ∃ needed answer, needed ≤ cs.length ∧ Settles cs needed answer := by
  classical
  have henough : ∃ n, ¬ TooDeep (parseAt n cs) :=
    ⟨cs.length + 1, not_tooDeep_of_length_lt (Nat.lt_succ_self _)⟩
  obtain ⟨needed, hneeded⟩ : ∃ needed, Nat.find henough = needed + 1 := by
    refine Nat.exists_eq_succ_of_ne_zero fun hzero => ?_
    exact (hzero ▸ Nat.find_spec henough) ⟨[], parseAt_zero cs⟩
  have hanswer : ¬ TooDeep (parseAt (needed + 1) cs) := hneeded ▸ Nat.find_spec henough
  refine ⟨needed, parseAt (needed + 1) cs, ?_, hanswer, fun levels hlt => ?_, fun levels hle => ?_⟩
  · have := Nat.find_min' henough (not_tooDeep_of_length_lt (Nat.lt_succ_self cs.length))
    omega
  · exact parseAt_of_le hanswer hlt
  · exact Classical.not_not.1 (Nat.find_min henough (by omega))

namespace Settles

variable {cs : List Char} {needed depth : Nat} {answer : Except ParseError Expr}

theorem parseFrom_eq (h : Settles cs needed answer) (hle : depth + needed ≤ maxDepth) :
    parseFrom depth cs = answer :=
  h.of_lt _ (by omega)

theorem tooDeep_parseFrom (h : Settles cs needed answer) (hlt : maxDepth < depth + needed) :
    TooDeep (parseFrom depth cs) :=
  h.of_le _ (by omega)

end Settles

/-- What is read at some depth is also read nearer to the root, with the same answer, and what is too
deep there is too deep further down. -/
theorem parseFrom_deeper {near far : Nat} (h : near ≤ far) (cs : List Char) :
    (∀ e, parseFrom far cs = .ok e → parseFrom near cs = .ok e) ∧
      (∀ error, parseFrom far cs = .error error → (∀ limit, error.fault ≠ .tooDeep limit) →
        parseFrom near cs = .error error) ∧
      ∀ path limit, parseFrom near cs = .error ⟨path, .tooDeep limit⟩ →
        ∃ path', parseFrom far cs = .error ⟨path', .tooDeep limit⟩ := by
  obtain ⟨needed, answer, -, hs⟩ := exists_settles cs
  obtain hfar | hfar := Nat.lt_or_ge maxDepth (far + needed)
  · obtain ⟨path', hpath'⟩ := hs.tooDeep_parseFrom hfar
    refine ⟨fun e he => ?_, fun error herror hfault => ?_, fun path limit hpath => ?_⟩
    · rw [hpath'] at he
      cases he
    · rw [hpath'] at herror
      cases herror
      exact absurd rfl (hfault maxDepth)
    · rw [limit_eq_of_parseAt hpath]
      exact ⟨path', hpath'⟩
  · have hnear : parseFrom near cs = answer := hs.parseFrom_eq (by omega)
    rw [hs.parseFrom_eq hfar, hnear]
    refine ⟨fun _ he => he, fun _ herror _ => herror, fun path limit hpath => ?_⟩
    rw [hpath] at hnear
    rw [limit_eq_of_parseAt hnear] at hpath
    exact absurd ⟨path, hpath⟩ hs.not_tooDeep

/-- The right operand of `^^` is at fault as long as the left one can be read. -/
theorem parseFrom_deeper_hidden :
    parseFrom 250 "!(MIT && ((ISC) ^^ (BSD ||)))".toList =
        .error ⟨[.negation, .right, .right], .missingOperand "BSD ||"⟩ ∧
      parseFrom 7 "!(MIT && ((ISC) ^^ (BSD ||)))".toList =
        .error ⟨[.negation, .right, .right], .missingOperand "BSD ||"⟩ ∧
      parseFrom 251 "!(MIT && ((ISC) ^^ (BSD ||)))".toList =
        .error ⟨[.negation, .right, .left], .tooDeep maxDepth⟩ ∧
      ∃ path, parseFrom 254 "!(MIT && ((ISC) ^^ (BSD ||)))".toList =
        .error ⟨path, .tooDeep maxDepth⟩ := by
  have hfound : parseFrom 250 "!(MIT && ((ISC) ^^ (BSD ||)))".toList =
      .error ⟨[.negation, .right, .right], .missingOperand "BSD ||"⟩ := rfl
  have hhidden : parseFrom 251 "!(MIT && ((ISC) ^^ (BSD ||)))".toList =
      .error ⟨[.negation, .right, .left], .tooDeep maxDepth⟩ := rfl
  obtain ⟨-, herror, -⟩ := parseFrom_deeper (show 7 ≤ 250 by decide)
    "!(MIT && ((ISC) ^^ (BSD ||)))".toList
  obtain ⟨-, -, hdeep⟩ := parseFrom_deeper (show 251 ≤ 254 by decide)
    "!(MIT && ((ISC) ^^ (BSD ||)))".toList
  exact ⟨hfound, herror _ hfound (fun _ h => nomatch h), hhidden, hdeep _ _ hhidden⟩

end LicenseAudit.Expr
