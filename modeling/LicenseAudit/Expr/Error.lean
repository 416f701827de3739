/-!
# Errors of expressions

A fault says what is wrong, and the steps from the root say where: an error is a fault below a path
of operands. The texts of an error are those of the steps, outermost first, and then that of the
fault.
-/

namespace LicenseAudit

/-- From an expression to one of its operands. -/
inductive Step where
  | left
  | right
  | negation
  deriving DecidableEq, Repr

/-- A fault and the way from the root to the place where it was found. -/
structure Located (Fault : Type) where
  path : List Step
  fault : Fault
  deriving DecidableEq, Repr

/-- A fault at the root. -/
def Located.here {Fault : Type} (fault : Fault) : Located Fault := ⟨[], fault⟩

/-- The error of an operand, as an error of the expression it belongs to. -/
def Located.under {Fault : Type} (step : Step) (e : Located Fault) : Located Fault :=
  ⟨step :: e.path, e.fault⟩

/-- Why a text is no expression. -/
inductive ParseFault where
  | invalidOperator (operator : String)
  | missingOperand (expression : String)
  | unbalanced (expression : String)
  | tooDeep (limit : Nat)
  deriving DecidableEq, Repr

/-- Why an expression has no value. -/
inductive EvalFault where
  | unknownVariable (name : String)
  | tooDeep (limit : Nat)
  deriving DecidableEq, Repr

abbrev ParseError := Located ParseFault

abbrev EvalError := Located EvalFault

/-- The text about nesting that is shared by both kinds of error. -/
def tooDeepMessage (limit : Nat) : String :=
  "expression nests deeper than " ++ Nat.repr limit ++ " levels"

/-- What an error says about the fault itself. -/
def ParseFault.message : ParseFault → String
  | invalidOperator operator => "invalid operator '" ++ operator ++ "'"
  | missingOperand expression => "missing operand in '" ++ expression ++ "'"
  | unbalanced expression => "unbalanced parentheses in '" ++ expression ++ "'"
  | tooDeep limit => tooDeepMessage limit

/-- What an error says about a step towards the fault. -/
def ParseFault.stepMessage : Step → String
  | .left => "failed to build left subtree"
  | .right => "failed to build right subtree"
  | .negation => "failed to build negated subtree"

@[inherit_doc ParseFault.message]
def EvalFault.message : EvalFault → String
  | unknownVariable name => "unknown variable: " ++ name
  | tooDeep limit => "internal error: " ++ tooDeepMessage limit

@[inherit_doc ParseFault.stepMessage]
def EvalFault.stepMessage : Step → String
  | .left => "failed solving left expression"
  | .right => "failed solving right expression"
  | .negation => "failed solving NOT sub-expression"

/-- The texts of an error, outermost first. -/
def Located.parseMessages (e : ParseError) : List String :=
  e.path.map ParseFault.stepMessage ++ [e.fault.message]

@[inherit_doc Located.parseMessages]
def Located.evalMessages (e : EvalError) : List String :=
  e.path.map EvalFault.stepMessage ++ [e.fault.message]

/-- The name without a value, however deep it was found. -/
def Located.unknownVariable? (e : EvalError) : Option String :=
  match e.fault with
  | .unknownVariable name => some name
  | .tooDeep _ => none

end LicenseAudit
