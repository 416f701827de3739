import LicenseAudit.Proofs.Expr.Grammar
import LicenseAudit.Proofs.Recording

/-!
# Decisions on the text of a license

A decision is recorded under a text, and a verdict looks up the names of an expression. So a
decision under the text of a license can take effect on this license only if the text is among its
names. The names are parts of the text, and whatever the grammar puts around them makes the text
longer: an operator, a `!`, parentheses, spaces. Therefore only a text that is a name is one of its
own names.

Results:
1. `Reads.literal_infix`: the literals of an expression are parts of its text.
2. `Reads.eq_literal`: an expression with its whole text as a literal is that literal.
3. `record_effective_iff`: a decision under the text of a license takes effect on it if the text is
   a name, and else it changes nothing.
-/

namespace LicenseAudit

namespace Expr

/-- The text is read as the name that it spells, and it spells no constant. -/
def IsName (text : String) : Prop :=
  parse text = .ok (.literal text) ∧ boolSpelling? text = none

/-! ## Literals in their text -/

theorem Connects.literals_eq {o : List Char} {join : Expr → Expr → Expr} (h : Connects o join)
    (l r : Expr) : (join l r).literals = l.literals ++ r.literals := by
  cases h <;> rfl

theorem Reads.literal_infix {cs : List Char} {e : Expr} (h : Reads cs e) {text : String}
    (ht : text ∈ e.literals) : text.toList <:+: cs := by
  induction h with
  | @atom a =>
    have htext : text.toList = a := by rw [List.mem_singleton.1 ht, String.toList_ofList]
    exact htext ▸ List.infix_rfl
  | empty =>
    obtain rfl := List.mem_singleton.1 ht
    exact List.infix_rfl
  | not _ _ ih => exact (ih ht).trans (List.suffix_cons _ _).isInfix
  | @binary l s o r join a b _ _ _ _ _ hop _ _ ihl ihr =>
    rw [hop.literals_eq, List.mem_append] at ht
    rcases ht with ht | ht
    · refine (ihl ht).trans (List.prefix_append_of_prefix ?_).isInfix
      rw [List.append_assoc]
      exact List.prefix_append _ _
    · exact (ihr ht).trans (List.suffix_append_of_suffix (List.suffix_cons _ _)).isInfix
  | paren _ _ ih => exact (ih ht).trans ⟨['('], [')'], rfl⟩
  | pad _ _ _ ih => exact (ih ht).trans ⟨_, _, rfl⟩

/-- Whatever the grammar puts around a literal makes the text longer. So an expression with a
literal as long as its text is that literal. -/
theorem Reads.eq_literal {cs : List Char} {e : Expr} (h : Reads cs e) {text : String}
    (ht : text ∈ e.literals) (hlen : cs.length ≤ text.toList.length) : e = .literal text := by
  induction h with
  | atom | empty => rw [List.mem_singleton.1 ht]
  | not hw =>
    have hle := (hw.literal_infix ht).length_le
    rw [List.length_cons] at hlen
    omega
  | binary hl hne _ _ _ hop hr =>
    rw [hop.literals_eq, List.mem_append] at ht
    simp only [List.length_append, List.length_cons] at hlen
    rcases ht with ht | ht
    · have hle := (hl.literal_infix ht).length_le
      omega
    · have hle := (hr.literal_infix ht).length_le
      omega
  | paren hw =>
    have hle := (hw.literal_infix ht).length_le
    simp only [List.length_cons, List.length_append] at hlen
    omega
  | pad _ _ _ ih =>
    simp only [List.length_append] at hlen
    exact ih ht (by omega)

end Expr

namespace Decisions

/-! ## Decisions under the text of a license -/

/-- A text that is among the names of its expression is a name. -/
theorem isName_of_mem_names {license : String} {e : Expr} (hparse : Expr.parse license = .ok e)
    (hmem : license ∈ e.names) : Expr.IsName license := by
  obtain ⟨hliteral, hname⟩ := Expr.mem_names_iff.1 hmem
  refine ⟨?_, hname⟩
  rw [hparse, (Expr.reads_of_parseAt hparse).eq_literal hliteral (Nat.le_refl _)]

/-- The verdict on a name is the decision on it. -/
theorem verdict_record_of_isName {license : String} (h : Expr.IsName license) (d : Decisions)
    (allowed : Bool) : (d.record license allowed).verdict license = .ok allowed := by
  have hvalue : (Expr.literal license).eval (d.record license allowed).find? = .ok allowed := by
    rw [Expr.eval, Expr.evalAt, Expr.literalValue, h.2, find?_record_self]
  exact (eval_eq_ok_iff h.1).1 hvalue

/-- A decision under a text that is no name is on none of the names that the text mentions. -/
theorem verdict_record_of_not_isName {license : String} (h : ¬ Expr.IsName license) (d : Decisions)
    (allowed : Bool) : (d.record license allowed).verdict license = d.verdict license := by
  have hno : ∀ e, Expr.parse license = .ok e → license ∉ e.names := by
    intro e hparse hmem
    exact h (isName_of_mem_names hparse hmem)
  exact verdict_congr (d.agreeOn_record hno allowed)

/-- Recording a decision under the text of a license gives the license this verdict, whatever was
decided before, if the text is read as the name that it spells and spells no constant, and only
then. Under any other text it makes no difference to the verdict on that text which decision is
recorded, and whether one is. -/
theorem record_effective_iff (license : String) :
    ((∀ d : Decisions, (d.record license true).verdict license = .ok true ∧
        (d.record license false).verdict license = .ok false) ↔
      Expr.parse license = .ok (.literal license) ∧ boolSpelling? license = none) ∧
    (¬ (Expr.parse license = .ok (.literal license) ∧ boolSpelling? license = none) →
      ∀ (d : Decisions) allowed,
        (d.record license allowed).verdict license = d.verdict license) := by
  refine ⟨⟨fun heffect => ?_, fun hname d => ?_⟩, verdict_record_of_not_isName⟩
  · by_contra hno
    obtain ⟨htrue, hfalse⟩ := heffect .empty
    rw [verdict_record_of_not_isName hno] at htrue hfalse
    rw [htrue] at hfalse
    cases hfalse
  · exact ⟨verdict_record_of_isName hname d true, verdict_record_of_isName hname d false⟩

/-- A space in front is enough to make a decision miss its license. -/
example : (empty.record " MIT" true).verdict " MIT" = .error (.unknownLicense " MIT" "MIT") := rfl

end Decisions

end LicenseAudit
