import LicenseAudit.Proofs.Expr.Form
import LicenseAudit.Proofs.Expr.Meaning

/-!
# The height of an expression

The parser allows as many levels as evaluation does, and it spends one at least on every step from
the root to a leaf. So what it returns is never too deep to be evaluated, and the failures of such an
expression are those of its literals.

Results:
1. `length_le_height`: the height bounds the depth of every position.
2. `height_lt_of_parseAt`, `height_le_of_parse`: a parsed expression is not higher than the levels
   that were allowed.
3. `fault_failures`: the faults of an expression within its levels are its literals that stand for
   nothing, in order.
-/

namespace LicenseAudit.Expr

/-! ## Definitions -/

/-- The number of steps from the root to the deepest leaf. -/
def height : Expr → Nat
  | literal _ => 0
  | not e => height e + 1
  | and l r => max (height l) (height r) + 1
  | or l r => max (height l) (height r) + 1

/-- The texts of the literals, from left to right. -/
def literals : Expr → List String
  | literal text => [text]
  | not e => literals e
  | and l r => literals l ++ literals r
  | or l r => literals l ++ literals r

/-- A text that is no constant and has no value. -/
def isOpen (value : String → Option Bool) (text : String) : Bool :=
  (boolSpelling? text).isNone && (value text).isNone

/-! ## Positions -/

theorem height_lt_of_operand? {e operand : Expr} {s : Step} (h : e.operand? s = some operand) :
    operand.height < e.height := by
  cases e with
  | literal text => cases s <;> cases h
  | not e =>
    cases s with
    | negation =>
      obtain rfl := Option.some.inj h
      exact Nat.lt_succ_self _
    | left | right => cases h
  | and l r | or l r =>
    cases s with
    | left =>
      obtain rfl := Option.some.inj h
      exact Nat.lt_succ_of_le (Nat.le_max_left _ _)
    | right =>
      obtain rfl := Option.some.inj h
      exact Nat.lt_succ_of_le (Nat.le_max_right _ _)
    | negation => cases h

/-- No position lies deeper than the expression is high. -/
theorem length_le_height {p : List Step} {e node : Expr} (h : at? p e = some node) :
    p.length ≤ e.height := by
  induction p generalizing e with
  | nil => exact Nat.zero_le _
  | cons s p ih =>
    obtain ⟨operand, hop, hat⟩ := Option.bind_eq_some_iff.1 h
    exact Nat.lt_of_le_of_lt (ih hat) (height_lt_of_operand? hop)

/-! ## Parsed expressions -/

theorem Connects.height_eq {o : List Char} {join : Expr → Expr → Expr} (h : Connects o join)
    (l r : Expr) : (join l r).height = max l.height r.height + 1 := by
  cases h <;> rfl

theorem height_lt_of_parseAt {n : Nat} {cs : List Char} {e : Expr} (h : parseAt n cs = .ok e) :
    e.height < n := by
  induction n generalizing cs e with
  | zero => cases h
  | succ n ih =>
    rw [parseAt_succ, Form.read_eq_ok] at h
    have hf := formOf_form cs
    generalize form cs = f at h hf
    cases hf with
    | blank | atom =>
      obtain rfl := Except.ok.inj h
      exact Nat.succ_pos n
    | inner => exact Nat.lt_succ_of_lt (ih h)
    | negation =>
      obtain ⟨a, ha, rfl⟩ := h
      exact Nat.succ_lt_succ (ih ha)
    | binary =>
      obtain ⟨join, a, b, hop, ha, hb, rfl⟩ := h
      have hla := ih ha
      have hlb := ih hb
      rw [hop.height_eq]
      omega
    | blankToken | blankRight | dangling | unbalanced => cases h

theorem height_le_of_parse {text : String} {e : Expr} (h : parse text = .ok e) :
    e.height ≤ maxDepth :=
  Nat.le_of_lt_succ (height_lt_of_parseAt h)

/-! ## Failures within the levels -/

theorem fault_map_under (s : Step) (errors : List EvalError) :
    (errors.map (Located.under s)).map Located.fault = errors.map Located.fault := by
  rw [List.map_map]
  rfl

theorem fault_failures (value : String → Option Bool) {levels : Nat} {e : Expr}
    (h : e.height < levels) :
    (failures value levels e).map Located.fault =
      (e.literals.filter (isOpen value)).map .unknownVariable := by
  induction levels generalizing e with
  | zero => exact absurd h (Nat.not_lt_zero _)
  | succ below ih =>
    cases e with
    | literal text =>
      rw [failures, literals]
      split
      · next hc => simp [isOpen, hc, Located.here]
      · next hc => simp [isOpen, hc]
    | not e =>
      rw [failures, fault_map_under, literals]
      exact ih (Nat.lt_of_succ_lt_succ h)
    | and l r | or l r =>
      have hl : l.height < below := Nat.lt_of_le_of_lt (Nat.le_max_left _ _)
        (Nat.lt_of_succ_lt_succ h)
      have hr : r.height < below := Nat.lt_of_le_of_lt (Nat.le_max_right _ _)
        (Nat.lt_of_succ_lt_succ h)
      rw [failures, List.map_append, fault_map_under, fault_map_under, ih hl, ih hr, literals,
        List.filter_append, List.map_append]

end LicenseAudit.Expr
