import LicenseAudit.Expr.Basic
import LicenseAudit.Expr.Error
import LicenseAudit.Expr.Split
import LicenseAudit.Text.Blank

/-!
# Reading expressions

`Expr.parse` reads an expression from its text. Every operator, every negation and every removal of
outer spaces or of one pair of parentheses leads one level down, and a text may nest 256 levels
deep.

Main statement: without a level left nothing is read (`parseAt_zero`).
-/

namespace LicenseAudit.Expr

/-- The number of levels below the root that an expression may have. -/
def maxDepth : Nat := 256

/-- Reads an expression, with the root on the first of `levels` levels. -/
def parseAt (levels : Nat) (cs : List Char) : Except ParseError Expr :=
  match levels with
  | 0 => .error (.here (.tooDeep maxDepth))
  | below + 1 =>
    match split cs with
    | .empty => .ok (.literal "")
    | .unbalanced => .error (.here (.unbalanced (String.ofList cs)))
    | .dangling => .error (.here (.missingOperand (String.ofList cs)))
    | .single token =>
      if Text.allBlank token then
        .error (.here (.missingOperand (String.ofList (Text.trim cs))))
      -- Outer spaces or parentheses are gone, and what is left is read one level down.
      else if token ≠ cs then parseAt below token
      else
        match cs with
        | '!' :: operand => ((parseAt below operand).mapError (·.under .negation)).map .not
        | _ => .ok (.literal (String.ofList cs))
    | .binary left operator right =>
      if Text.allBlank right then
        .error (.here (.missingOperand (String.ofList (left ++ ' ' :: operator ++ ' ' :: right))))
      else do
        let l ← (parseAt below left).mapError (·.under .left)
        let r ← (parseAt below right).mapError (·.under .right)
        -- The operator is judged last, so a fault in an operand is found first.
        match operator with
        | ['&', '&'] => .ok (.and l r)
        | ['|', '|'] => .ok (.or l r)
        | _ => .error (.here (.invalidOperator (String.ofList operator)))

/-- Reads an expression. Operators group to the right and are not ranked. -/
def parse (text : String) : Except ParseError Expr := parseAt (maxDepth + 1) text.toList

theorem parseAt_zero (cs : List Char) : parseAt 0 cs = .error (.here (.tooDeep maxDepth)) := rfl

end LicenseAudit.Expr
