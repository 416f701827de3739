import LicenseAudit.Proofs.Expr.Grammar
import LicenseAudit.Proofs.Expr.Meaning

/-!
# Operands that hold nothing

A text that holds nothing but blanks is read as the empty name, or refused. Behind an operator and
inside parentheses such a text is always refused. Behind `!` it is refused too, unless there is
nothing at all: `!` alone is read as the negation of the empty name.

Results:
1. `Reads.blank_literal`: by the grammar, a blank literal is the whole text, or the operand of a `!`
   with nothing behind it.
2. `parse_operands`: what the parser returns for a text that is not blank has no other ones.
3. `parse_bare_negation`: a missing operand that the parser does not report.
-/

namespace LicenseAudit.Expr

/-! ## Definitions -/

/-- No operand stands at the beginning of the text. -/
def lacksOperand : List Char → Bool
  | [] => true
  | c :: _ => c = ' ' || c = ')'

/-- The text has a `!` that lacks its operand; `fresh` says that an operand may start here. A `!` in
the middle of a name is part of the name. -/
def bareNegationFrom (fresh : Bool) : List Char → Bool
  | [] => false
  | c :: cs =>
    if c = '!' then (fresh && lacksOperand cs) || bareNegationFrom fresh cs
    else bareNegationFrom (c = ' ' || c = '(') cs

/-- The text has a `!` that lacks its operand. -/
def bareNegation (cs : List Char) : Bool := bareNegationFrom true cs

/-! ## Parts of a text -/

theorem lacksOperand_append {w b : List Char} (h : lacksOperand w = true)
    (hb : lacksOperand b = true) : lacksOperand (w ++ b) = true := by
  cases w with
  | nil => exact hb
  | cons c w => exact h

theorem bareNegationFrom_append {fresh : Bool} {w b : List Char}
    (h : bareNegationFrom fresh w = true) (hb : lacksOperand b = true) :
    bareNegationFrom fresh (w ++ b) = true := by
  induction w generalizing fresh with
  | nil => cases h
  | cons c w ih =>
    rw [List.cons_append, bareNegationFrom]
    rw [bareNegationFrom] at h
    split
    · next hc =>
      rw [if_pos hc, Bool.or_eq_true, Bool.and_eq_true] at h
      rw [Bool.or_eq_true, Bool.and_eq_true]
      exact h.imp (fun ⟨hf, hl⟩ => ⟨hf, lacksOperand_append hl hb⟩) ih
    · next hc =>
      rw [if_neg hc] at h
      exact ih h

theorem bareNegationFrom_cons_of_opens {c : Char} (hc : c = ' ' ∨ c = '(') {w : List Char}
    (h : bareNegation w = true) (fresh : Bool) (a : List Char) :
    bareNegationFrom fresh (a ++ c :: w) = true := by
  induction a generalizing fresh with
  | nil => rcases hc with rfl | rfl <;> exact h
  | cons d a ih =>
    rw [List.cons_append, bareNegationFrom]
    split
    · rw [ih, Bool.or_true]
    · exact ih _

/-- A `!` that lacks its operand in a part of the text lacks it in the text, if an operand may start
where the part starts, and none where it ends. -/
theorem bareNegation_append {w : List Char} (h : bareNegation w = true) {a b : List Char}
    (ha : ∀ c ∈ a.getLast?, c = ' ' ∨ c = '(') (hb : lacksOperand b = true) :
    bareNegation (a ++ w ++ b) = true := by
  refine bareNegationFrom_append ?_ hb
  rcases List.eq_nil_or_concat a with rfl | ⟨a, c, rfl⟩
  · exact h
  · simpa using bareNegationFrom_cons_of_opens (ha c (by simp)) h true a

theorem bareNegation_negation {w : List Char} (h : w = [] ∨ bareNegation w = true) :
    bareNegation ('!' :: w) = true := by
  rcases h with rfl | h
  · rfl
  · rw [bareNegation, bareNegationFrom, if_pos rfl]
    exact Bool.or_eq_true_iff.2 (.inr h)

theorem Spaces.lacksOperand {b : List Char} (h : Spaces b) : lacksOperand b = true := by
  cases b with
  | nil => rfl
  | cons c b =>
    rw [h c List.mem_cons_self]
    rfl

theorem Spaces.allBlank {a : List Char} (h : Spaces a) : Text.allBlank a = true := by
  rw [Text.allBlank, List.all_eq_true]
  intro c hc
  rw [h c hc]
  rfl

theorem not_spaces_of_not_blank {cs : List Char} (h : Text.allBlank cs = false) : ¬ Spaces cs := by
  intro hs
  rw [hs.allBlank] at h
  cases h

/-- Spaces that no space divides are none. -/
theorem Spaces.eq_nil {w : List Char} (h : Spaces w) (hw : ¬ OuterSpace w) : w = [] := by
  by_cases hne : w = []
  · exact hne
  · obtain ⟨v, rfl, -⟩ := h.exists_cons hne
    exact absurd ⟨[], v, rfl, Balanced.nil⟩ hw

/-! ## Literals of an expression -/

theorem literal_of_at?_literal {p : List Step} {text lit : String}
    (h : at? p (literal text) = some (literal lit)) : p = [] ∧ lit = text := by
  cases p with
  | nil => exact ⟨rfl, (literal.inj (Option.some.inj h)).symm⟩
  | cons s p => cases s <;> cases h

theorem literal_of_at?_not {p : List Step} {e : Expr} {lit : String}
    (h : at? p (.not e) = some (literal lit)) :
    ∃ q, p = .negation :: q ∧ at? q e = some (literal lit) := by
  cases p with
  | nil => cases h
  | cons s p =>
    cases s with
    | negation => exact ⟨p, rfl, h⟩
    | left | right => cases h

theorem Connects.operand?_eq {o : List Char} {join : Expr → Expr → Expr} (h : Connects o join)
    (l r : Expr) :
    (join l r).operand? = fun | .left => some l | .right => some r | .negation => none := by
  funext s
  cases h <;> cases s <;> rfl

theorem Connects.literal_of_at? {o : List Char} {join : Expr → Expr → Expr} (hop : Connects o join)
    {p : List Step} {l r : Expr} {lit : String} (h : at? p (join l r) = some (literal lit)) :
    ∃ q, (p = .left :: q ∧ at? q l = some (literal lit)) ∨
      (p = .right :: q ∧ at? q r = some (literal lit)) := by
  cases p with
  | nil => cases hop <;> cases h
  | cons s p =>
    rw [at?, hop.operand?_eq] at h
    cases s with
    | left => exact ⟨p, .inl ⟨rfl, h⟩⟩
    | right => exact ⟨p, .inr ⟨rfl, h⟩⟩
    | negation => cases h

/-! ## Blank literals -/

/-- A blank literal is the whole text, or nothing at all stands behind the `!` it belongs to. -/
theorem Reads.blank_literal {cs : List Char} {e : Expr} (h : Reads cs e) {p : List Step}
    {lit : String} (hat : at? p e = some (literal lit)) (hlit : Text.blank lit = true) :
    lit = "" ∧
      ((p = [] ∧ Spaces cs) ∨ ((∃ q, p = q ++ [.negation]) ∧ bareNegation cs = true)) := by
  induction h generalizing p with
  | @atom a hblank _ _ _ _ =>
    obtain ⟨-, rfl⟩ := literal_of_at?_literal hat
    rw [Text.blank, String.toList_ofList, hblank] at hlit
    cases hlit
  | empty =>
    obtain ⟨rfl, rfl⟩ := literal_of_at?_literal hat
    exact ⟨rfl, .inl ⟨rfl, .nil⟩⟩
  | @not w e _ hw ih =>
    obtain ⟨q, rfl, hq⟩ := literal_of_at?_not hat
    obtain ⟨hempty, ⟨rfl, hspaces⟩ | ⟨⟨q, rfl⟩, hbare⟩⟩ := ih hq
    · -- The operand is the blank literal, so there is nothing behind the `!`.
      exact ⟨hempty, .inr ⟨⟨[], rfl⟩, bareNegation_negation (.inl (hspaces.eq_nil hw))⟩⟩
    · exact ⟨hempty, .inr ⟨⟨.negation :: q, rfl⟩, bareNegation_negation (.inr hbare)⟩⟩
  | @binary l s o r join a b _ hlne hlo hs hsne hop _ hr ihl ihr =>
    obtain ⟨q, ⟨rfl, hq⟩ | ⟨rfl, hq⟩⟩ := hop.literal_of_at? hat
    · obtain ⟨hempty, ⟨-, hspaces⟩ | ⟨⟨q, rfl⟩, hbare⟩⟩ := ihl hq
      · exact absurd (hspaces.eq_nil hlo) hlne
      · obtain ⟨s, rfl, -⟩ := hs.exists_cons hsne
        have hcs := bareNegation_append hbare (a := []) (b := ' ' :: s ++ o ++ ' ' :: r)
          (by simp) rfl
        exact ⟨hempty, .inr ⟨⟨.left :: q, rfl⟩, by simpa using hcs⟩⟩
    · obtain ⟨hempty, ⟨-, hspaces⟩ | ⟨⟨q, rfl⟩, hbare⟩⟩ := ihr hq
      · exact absurd hspaces (not_spaces_of_not_blank hr)
      · have hcs := bareNegation_append hbare (a := l ++ s ++ o ++ [' ']) (b := [])
          (by simp) rfl
        exact ⟨hempty, .inr ⟨⟨.right :: q, rfl⟩, by simpa using hcs⟩⟩
  | @paren w e _ hw ih =>
    obtain ⟨hempty, ⟨-, hspaces⟩ | ⟨hq, hbare⟩⟩ := ih hat
    · exact absurd hspaces (not_spaces_of_not_blank hw)
    · have hcs := bareNegation_append hbare (a := ['(']) (b := [')']) (by simp) rfl
      exact ⟨hempty, .inr ⟨hq, by simpa using hcs⟩⟩
  | @pad a w b e _ ha hb ih =>
    obtain ⟨hempty, ⟨hp, hspaces⟩ | ⟨hq, hbare⟩⟩ := ih hat
    · exact ⟨hempty, .inl ⟨hp, (ha.append hspaces).append hb⟩⟩
    · have hcs := bareNegation_append hbare
        (fun c hc => .inl (ha c (List.mem_of_getLast? hc))) hb.lacksOperand
      exact ⟨hempty, .inr ⟨hq, hcs⟩⟩

/-! ## The parser -/

/-- If every `!` has something behind it, no literal of a text that is not blank is blank: a missing
operand is an error, wherever it is missing. Otherwise the only blank literals are empty operands of
negations. -/
theorem parse_operands {text : String} {e : Expr} (h : parse text = .ok e)
    (hne : Text.blank text = false) :
    (bareNegation text.toList = false →
        ∀ p lit, at? p e = some (literal lit) → Text.blank lit = false) ∧
      ∀ p lit, at? p e = some (literal lit) → Text.blank lit = true →
        lit = "" ∧ ∃ q, p = q ++ [.negation] := by
  have hblank : ∀ p lit, at? p e = some (literal lit) → Text.blank lit = true →
      lit = "" ∧ (∃ q, p = q ++ [.negation]) ∧ bareNegation text.toList = true := by
    intro p lit hat hlit
    obtain ⟨hempty, ⟨-, hspaces⟩ | hbare⟩ := (reads_of_parseAt h).blank_literal hat hlit
    · rw [Text.blank, hspaces.allBlank] at hne
      cases hne
    · exact ⟨hempty, hbare⟩
  refine ⟨fun hno p lit hat => ?_, fun p lit hat hlit => ?_⟩
  · refine Bool.eq_false_iff.2 fun hlit => ?_
    rw [(hblank p lit hat hlit).2.2] at hno
    cases hno
  · obtain ⟨hempty, hq, -⟩ := hblank p lit hat hlit
    exact ⟨hempty, hq⟩

theorem parse_operands_nested :
    (∃ e, parse "MIT && !(GPL || ISC)" = .ok e ∧
        ∀ p lit, at? p e = some (literal lit) → Text.blank lit = false) ∧
      Text.blank "MIT && !(GPL || ISC)" = false ∧
      bareNegation "MIT && !(GPL || ISC)".toList = false := by
  have hparse : parse "MIT && !(GPL || ISC)" =
      .ok (.and (.literal "MIT") (.not (.or (.literal "GPL") (.literal "ISC")))) := rfl
  have hblank : Text.blank "MIT && !(GPL || ISC)" = false := rfl
  have hbare : bareNegation "MIT && !(GPL || ISC)".toList = false := rfl
  exact ⟨⟨_, hparse, (parse_operands hparse hblank).1 hbare⟩, hblank, hbare⟩

/-- The negation of nothing is read, although it is not blank and its operand is missing. -/
theorem parse_bare_negation :
    parse "!" = .ok (.not (.literal "")) ∧
      ¬ ∀ text e, parse text = .ok e → Text.blank text = false →
        ∀ p lit, at? p e = some (literal lit) → Text.blank lit = false := by
  have hparse : parse "!" = .ok (.not (.literal "")) := rfl
  refine ⟨hparse, fun h => ?_⟩
  have := h "!" _ hparse rfl [.negation] "" rfl
  cases this

end LicenseAudit.Expr
