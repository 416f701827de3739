import LicenseAudit.Proofs.Expr.Balance
import LicenseAudit.Proofs.Expr.Decomposition
import LicenseAudit.Proofs.Expr.Operands
import LicenseAudit.Proofs.Text.Trim
import LicenseAudit.Proofs.Verdict

/-!
# Blank expressions

Two notions of blank meet when an expression is read. The cut skips spaces only, so any other white
space is a token; but an operand of white space is no operand. A text that is blank in the first
sense is the empty name. One that is blank only in the second sense consists of tokens that nobody
can see, and it is refused, however many tokens there are.

Results:
1. `parseAt_blank`: a blank text that is not made of spaces is refused, with what the error quotes.
2. `blank_license`: the verdict on a blank license.
3. `blank_license_tab`: a blank text that is refused.
-/

namespace LicenseAudit

namespace Expr

/-- What is quoted of a blank text that lacks an operand: nothing of one token, all of a text that
ends with its second token, or else the two tokens and the operand behind single spaces. -/
inductive Quotes : List Char → List Char → Prop
  | lone {cs w : List Char} : Lone cs w → Quotes cs []
  | dangling {cs : List Char} : Dangles cs → Quotes cs cs
  | right {cs a l s o r : List Char} : Decomposes cs a l s o r →
      Quotes cs (l ++ ' ' :: o ++ ' ' :: r)

/-! ## Blank texts -/

theorem notMem_of_allBlank {cs : List Char} (h : Text.allBlank cs = true) {c : Char}
    (hc : Text.isBlank c = false) : c ∉ cs := by
  intro hmem
  rw [List.all_eq_true.1 h c hmem] at hc
  cases hc

/-- A blank text has no parentheses that could lack a partner. -/
theorem balanced_of_allBlank {cs : List Char} (h : Text.allBlank cs = true) : Balanced cs :=
  balanced_of_no_parenthesis (notMem_of_allBlank h rfl) (notMem_of_allBlank h rfl)

theorem unwrap_of_allBlank {w : List Char} (h : Text.allBlank w = true) : unwrap w = w := by
  refine unwrap_of_not_wraps fun inside hw => notMem_of_allBlank h rfl (c := '(') ?_
  rw [hw.1]
  exact List.mem_cons_self

theorem allBlank_append_iff {a b : List Char} :
    Text.allBlank (a ++ b) = true ↔ Text.allBlank a = true ∧ Text.allBlank b = true := by
  rw [Text.allBlank, List.all_append, Bool.and_eq_true]
  rfl

/-! ## Reading a blank text -/

theorem parseAt_spaces (n : Nat) {cs : List Char} (h : Spaces cs) :
    parseAt (n + 1) cs = .ok (.literal "") := by
  rw [parseAt_succ, form_of_formOf (.blank h)]
  rfl

/-- A blank text that is not made of spaces has at least one token, and its operand is missing:
every form of text that could be read on has a part that is not blank. -/
theorem parseAt_blank (n : Nat) {cs : List Char} (h : Text.allBlank cs = true)
    (hspaces : ¬ Spaces cs) :
    ∃ quoted, Quotes cs quoted ∧
      parseAt (n + 1) cs = .error (.here (.missingOperand (String.ofList quoted))) := by
  rw [parseAt_succ]
  have hf := formOf_form cs
  generalize form cs = f at hf
  cases hf with
  | blank ha => exact absurd ha hspaces
  | atom ha => exact absurd h (Bool.eq_false_iff.1 ha.not_blank)
  | inner _ _ _ hblank =>
    have hw := (allBlank_append_iff.1 (allBlank_append_iff.1 h).1).2
    rw [unwrap_of_allBlank hw, hw] at hblank
    cases hblank
  | negation => exact absurd h (Bool.eq_false_iff.1 (allBlank_negation _))
  | binary _ _ _ _ _ hblank =>
    have hr := (allBlank_append_iff (a := [' '])).1 (allBlank_append_iff.1 h).2
    rw [hr.2] at hblank
    cases hblank
  | blankToken ha hw hb =>
    refine ⟨[], .lone ⟨_, _, rfl, ha, hw, hb⟩, ?_⟩
    rw [Text.trim_eq_nil_iff.2 h]
    rfl
  | blankRight ha hl hs hne ho => exact ⟨_, .right ⟨rfl, ha, hl, hs, hne, ho⟩, rfl⟩
  | dangling ha hl hs hne ho => exact ⟨_, .dangling ⟨_, _, _, _, rfl, ha, hl, hs, hne, ho⟩, rfl⟩
  | unbalanced hno => exact absurd (balanced_of_allBlank h) (not_balanced_of_not_topLevel hno)

end Expr

namespace Decisions

/-! ## The verdict on a blank license -/

theorem verdict_of_parse_empty {d : Decisions} {license : String}
    (hparse : Expr.parse license = .ok (.literal "")) (hd : d.find? "" = none) :
    d.verdict license = .error (.unknownLicense license "") := by
  have hname : (Expr.literal "").names = [""] := by decide
  have hundecided : d.decides "" = false := by rw [decides, hd, Option.isSome_none]
  rw [d.verdict_of_parse hparse, hname, List.filter_cons_of_pos (by rw [hundecided]; rfl)]
  rfl

/-- A license that is made of spaces, or of nothing, is the empty name, which is unknown unless it
is decided. A license of other white space, with or without spaces, is refused: it has a token where
an operand is missing. -/
theorem blank_license {license : String} (h : Text.blank license = true) :
    (Expr.Spaces license.toList →
      Expr.parse license = .ok (.literal "") ∧
        ∀ d : Decisions, d.find? "" = none →
          d.verdict license = .error (.unknownLicense license "")) ∧
      (¬ Expr.Spaces license.toList → ∃ quoted, Expr.Quotes license.toList quoted ∧
        Expr.parse license = .error (.here (.missingOperand (String.ofList quoted))) ∧
          ∀ d : Decisions, d.verdict license =
            .error (.parse license (.here (.missingOperand (String.ofList quoted))))) := by
  constructor
  · intro hspaces
    have hparse : Expr.parse license = .ok (.literal "") := Expr.parseAt_spaces _ hspaces
    exact ⟨hparse, fun d hd => verdict_of_parse_empty hparse hd⟩
  · intro hspaces
    obtain ⟨quoted, hquotes, hparse⟩ := Expr.parseAt_blank Expr.maxDepth h hspaces
    exact ⟨quoted, hquotes, hparse, fun d => verdict_of_parse_error d hparse⟩

/-- Spaces alone, and spaces around a line feed and a no-break space. -/
theorem blank_license_mixed :
    Text.blank "   " = true ∧ empty.verdict "   " = .error (.unknownLicense "   " "") ∧
      Text.blank "  \n \u00a0 " = true ∧
      ∃ quoted, empty.verdict "  \n \u00a0 " =
        .error (.parse "  \n \u00a0 " (.here (.missingOperand quoted))) := by
  have hspaces : Text.blank "   " = true := rfl
  have hmixed : Text.blank "  \n \u00a0 " = true := rfl
  have hverdict := ((blank_license hspaces).1 (by simp [Expr.Spaces])).2 empty rfl
  obtain ⟨quoted, -, -, hrefused⟩ := (blank_license hmixed).2 (by simp [Expr.Spaces])
  exact ⟨hspaces, hverdict, hmixed, _, hrefused empty⟩

/-- A tab is a blank text, but it is not read as the empty name. -/
theorem blank_license_tab :
    Text.blank "\t" = true ∧ Expr.parse "\t" = .error (.here (.missingOperand "")) ∧
      ¬ ∀ license, Text.blank license = true →
        Expr.parse license = .ok (.literal "") ∧
          ∀ d : Decisions, d.find? "" = none →
            d.verdict license = .error (.unknownLicense license "") := by
  have hblank : Text.blank "\t" = true := rfl
  have hparse : Expr.parse "\t" = .error (.here (.missingOperand "")) := rfl
  refine ⟨hblank, hparse, fun h => ?_⟩
  have := (h "\t" hblank).1
  rw [hparse] at this
  cases this

end Decisions

end LicenseAudit
