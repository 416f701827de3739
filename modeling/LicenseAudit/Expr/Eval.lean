import LicenseAudit.Expr.Parse

/-!
# The value of an expression

A constant has its own value, whatever the names stand for. Both operands are always evaluated, so a
name without a value is reported even where the other operand decides; the left one comes first.
-/

namespace LicenseAudit.Expr

/-- The value of a literal. -/
def literalValue (value : String → Option Bool) (text : String) : Except EvalError Bool :=
  match boolSpelling? text with
  | some b => .ok b
  | none =>
    match value text with
    | some b => .ok b
    | none => .error (.here (.unknownVariable text))

/-- The value of an expression whose root is on the first of `levels` levels. -/
def evalAt (value : String → Option Bool) (levels : Nat) (e : Expr) : Except EvalError Bool :=
  match levels with
  | 0 => .error (.here (.tooDeep maxDepth))
  | below + 1 =>
    match e with
    | literal text => literalValue value text
    | not operand => ((evalAt value below operand).mapError (·.under .negation)).map (! ·)
    | and l r => do
      let a ← (evalAt value below l).mapError (·.under .left)
      let b ← (evalAt value below r).mapError (·.under .right)
      .ok (a && b)
    | or l r => do
      let a ← (evalAt value below l).mapError (·.under .left)
      let b ← (evalAt value below r).mapError (·.under .right)
      .ok (a || b)

/-- The value of an expression under the given values of its names. -/
def eval (value : String → Option Bool) (e : Expr) : Except EvalError Bool :=
  evalAt value (maxDepth + 1) e

end LicenseAudit.Expr
