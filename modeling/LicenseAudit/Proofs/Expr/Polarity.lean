import LicenseAudit.Proofs.Expr.Names
import LicenseAudit.Proofs.Expr.Operands
import Mathlib.Algebra.Group.Nat.Even

/-!
# Polarity

A name occurs in an expression under some number of negations, and each negation turns around what
another value of the name does to the value of the expression. So a change of values cannot make a
true expression false if every name changes in the direction that its occurrences ask for: to true
under an even number of negations, to false under an odd one. A name that occurs under both cannot
change at all.

Results:
1. `allLiterals_not`, `Connects.allLiterals_iff`: what holds of all literals, by operands.
2. `truth_mono`: values that favour an expression keep it true.
3. `Reads.allLiterals_zero`: a text without `!` has no negations.
-/

namespace LicenseAudit.Expr

/-! ## Definitions -/

/-- Every literal of the expression has the property, together with the number of negations that it
stands under. -/
def AllLiterals (P : String → Nat → Prop) (e : Expr) : Prop :=
  ∀ p text, at? p e = some (literal text) → P text (p.count .negation)

/-- Wherever the name occurs in the expression, the number of negations above it is of this kind. -/
def OccursOnly (kind : Nat → Prop) (name : String) (e : Expr) : Prop :=
  e.AllLiterals fun text n => text = name → kind n

/-- The new values favour the expression: where they differ from the old ones, a name becomes true
under an even number of negations and false under an odd one. -/
def Favours (old new : String → Bool) (e : Expr) : Prop :=
  e.AllLiterals fun name n =>
    boolSpelling? name = none → old name ≠ new name → (new name = true ↔ Even n)

/-! ## All literals, by operands -/

section

variable {P Q : String → Nat → Prop} {e : Expr}

theorem AllLiterals.imp (himp : ∀ text n, P text n → Q text n) (h : e.AllLiterals P) :
    e.AllLiterals Q :=
  fun p text hat => himp text _ (h p text hat)

@[simp]
theorem allLiterals_literal {text : String} : (literal text).AllLiterals P ↔ P text 0 := by
  constructor
  · intro h
    exact h [] text rfl
  · intro h p other hat
    obtain ⟨rfl, rfl⟩ := literal_of_at?_literal hat
    exact h

@[simp]
theorem allLiterals_not : (not e).AllLiterals P ↔ e.AllLiterals fun text n => P text (n + 1) := by
  constructor
  · intro h p text hat
    have := h (.negation :: p) text hat
    rwa [List.count_cons_self] at this
  · intro h p text hat
    obtain ⟨q, rfl, hq⟩ := literal_of_at?_not hat
    rw [List.count_cons_self]
    exact h q text hq

theorem Connects.allLiterals_iff {o : List Char} {join : Expr → Expr → Expr}
    (hop : Connects o join) {l r : Expr} :
    (join l r).AllLiterals P ↔ l.AllLiterals P ∧ r.AllLiterals P := by
  constructor
  · intro h
    refine ⟨fun p text hat => ?_, fun p text hat => ?_⟩
    · exact h (.left :: p) text (by rwa [at?, hop.operand?_eq])
    · exact h (.right :: p) text (by rwa [at?, hop.operand?_eq])
  · rintro ⟨hl, hr⟩ p text hat
    obtain ⟨q, ⟨rfl, hq⟩ | ⟨rfl, hq⟩⟩ := hop.literal_of_at? hat
    · exact hl q text hq
    · exact hr q text hq

@[simp]
theorem allLiterals_and {l r : Expr} :
    (and l r).AllLiterals P ↔ l.AllLiterals P ∧ r.AllLiterals P :=
  Connects.and.allLiterals_iff

@[simp]
theorem allLiterals_or {l r : Expr} :
    (or l r).AllLiterals P ↔ l.AllLiterals P ∧ r.AllLiterals P :=
  Connects.or.allLiterals_iff

end

/-! ## Values that favour an expression -/

/-- Under a negation the old values and the new ones change places. -/
theorem Favours.of_not {old new : String → Bool} {e : Expr} (h : Favours old new (.not e)) :
    Favours new old e := by
  refine (allLiterals_not.1 h).imp fun name n hname hspelling hne => ?_
  have hnew : new name = true ↔ ¬ Even n := by
    rw [hname hspelling hne.symm, Nat.even_add_one]
  have hold : old name = true ↔ ¬ new name = true := by
    rw [Bool.eq_not.2 hne.symm, Bool.not_eq_true', Bool.not_eq_true]
  rw [hold, hnew, not_not]

theorem truth_mono {old new : String → Bool} {e : Expr} (h : Favours old new e)
    (htrue : e.truth old = true) : e.truth new = true := by
  induction e generalizing old new with
  | literal text =>
    rw [truth] at htrue ⊢
    cases hspelling : boolSpelling? text with
    | some b => rwa [hspelling] at htrue
    | none =>
      rw [hspelling, Option.getD_none] at htrue
      rw [Option.getD_none]
      by_contra hfalse
      exact hfalse ((allLiterals_literal.1 h hspelling fun heq => hfalse (heq ▸ htrue)).2 Even.zero)
  | not e ih =>
    rw [truth, Bool.not_eq_true'] at htrue ⊢
    refine Bool.eq_false_iff.2 fun hnew => ?_
    rw [ih h.of_not hnew] at htrue
    cases htrue
  | and l r ihl ihr =>
    obtain ⟨hl, hr⟩ := allLiterals_and.1 h
    rw [truth, Bool.and_eq_true] at htrue ⊢
    exact htrue.imp (ihl hl) (ihr hr)
  | or l r ihl ihr =>
    obtain ⟨hl, hr⟩ := allLiterals_or.1 h
    rw [truth, Bool.or_eq_true] at htrue ⊢
    exact htrue.imp (ihl hl) (ihr hr)

/-! ## Texts without negations -/

theorem Reads.allLiterals_zero {cs : List Char} {e : Expr} (h : Reads cs e) (hcs : '!' ∉ cs) :
    e.AllLiterals fun _ n => n = 0 := by
  induction h with
  | atom | empty => exact allLiterals_literal.2 rfl
  | not => exact absurd List.mem_cons_self hcs
  | binary _ _ _ _ _ hop _ _ ihl ihr =>
    refine hop.allLiterals_iff.2 ⟨ihl fun h => hcs ?_, ihr fun h => hcs ?_⟩ <;> simp [h]
  | paren _ _ ih => exact ih fun h => hcs (by simp [h])
  | pad _ _ _ ih => exact ih fun h => hcs (by simp [h])

end LicenseAudit.Expr
