/-!
# License expressions

An expression is a name or a Boolean constant, a negation, a conjunction or a disjunction.
This file has the tree, its accessors, the spellings of the constants, the names an expression
mentions, and its fully parenthesized text.
-/

namespace LicenseAudit

/-- A license expression. A literal keeps its text as written. -/
inductive Expr where
  | literal (text : String)
  | not (operand : Expr)
  | and (left right : Expr)
  | or (left right : Expr)
  deriving DecidableEq, Repr

/-- The role of the root of an expression. -/
inductive Operator where
  | literal
  | not
  | and
  | or
  deriving DecidableEq, Repr

/-- The Boolean constant that a text spells, in upper, lower or mixed ASCII case. -/
def boolSpelling? (text : String) : Option Bool :=
  let lower := text.toList.map Char.toLower
  if lower = ['t', 'r', 'u', 'e'] ∨ lower = ['t'] ∨ lower = ['1'] then some true
  else if lower = ['f', 'a', 'l', 's', 'e'] ∨ lower = ['f'] ∨ lower = ['0'] then some false
  else none

namespace Expr

/-- The role of the root. -/
def operator : Expr → Operator
  | literal _ => .literal
  | not _ => .not
  | and _ _ => .and
  | or _ _ => .or

/-- The only operand of a negation, or the left operand. -/
def left? : Expr → Option Expr
  | literal _ => none
  | not e => some e
  | and l _ => some l
  | or l _ => some l

/-- The right operand of a conjunction or disjunction. -/
def right? : Expr → Option Expr
  | literal _ => none
  | not _ => none
  | and _ r => some r
  | or _ r => some r

/-- The text of a literal, and nothing for every other root. -/
def rawText : Expr → String
  | literal text => text
  | _ => ""

/-- The names of an expression added to those already seen: constants are no names, and a name that
was seen before is not added again. -/
def namesAfter (seen : List String) : Expr → List String
  | literal text =>
    if (boolSpelling? text).isSome || seen.contains text then seen else seen ++ [text]
  | not e => namesAfter seen e
  | and l r => namesAfter (namesAfter seen l) r
  | or l r => namesAfter (namesAfter seen l) r

/-- The names of an expression, each once, in the order of their first appearance. -/
def names (e : Expr) : List String := namesAfter [] e

/-- The text of an expression with every conjunction and disjunction in parentheses. -/
def render : Expr → String
  | literal text => text
  | not e => "!" ++ render e
  | and l r => "(" ++ render l ++ " && " ++ render r ++ ")"
  | or l r => "(" ++ render l ++ " || " ++ render r ++ ")"

/-- The nodes of an expression, root first and left before right, each with its distance from the
root. -/
def outlineFrom (depth : Nat) : Expr → List (Nat × Expr)
  | literal text => [(depth, literal text)]
  | not e => (depth, not e) :: outlineFrom (depth + 1) e
  | and l r => (depth, and l r) :: (outlineFrom (depth + 1) l ++ outlineFrom (depth + 1) r)
  | or l r => (depth, or l r) :: (outlineFrom (depth + 1) l ++ outlineFrom (depth + 1) r)

/-- The nodes of an expression with their distance from the root. -/
def outline (e : Expr) : List (Nat × Expr) := outlineFrom 0 e

end Expr

end LicenseAudit
