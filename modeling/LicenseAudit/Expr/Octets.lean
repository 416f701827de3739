import LicenseAudit.Expr.Split

/-!
# The cut of an expression in one pass

A text is stored as octets. One pass over them cuts it without looking at anything twice: it keeps
offsets, and the tokens are slices of the text between two of them. A slice needs ends that lie in
the text and between two characters, or else there is none. The same pass can be made over the
characters, where each is as wide as its octets.

Main statement: an offset is only kept if none was kept before (`keep_keep`).
-/

namespace LicenseAudit.Expr

/-- What the pass tells apart. -/
inductive Sign where
  | space
  | opening
  | closing
  | other
  deriving DecidableEq, Repr

/-- The sign of an octet. -/
def octetSign (b : UInt8) : Sign :=
  if b = 0x20 then .space else if b = 0x28 then .opening else if b = 0x29 then .closing else .other

/-- The sign of a character. -/
def charSign (c : Char) : Sign :=
  if c = ' ' then .space else if c = '(' then .opening else if c = ')' then .closing else .other

/-- The number of parentheses that are open after a sign, when `depth` were open before it; none if
one is closed that was not open. -/
def Sign.after (depth : Nat) : Sign → Option Nat
  | .opening => some (depth + 1)
  | .closing => if depth = 0 then none else some (depth - 1)
  | _ => some depth

/-- A stretch of a text from one offset up to another. -/
structure Span where
  start : Nat
  stop : Nat
  deriving DecidableEq, Repr

/-- How the pass ends: with the stretches that it has cut off, which a fault may leave unused. -/
inductive Cut where
  | empty
  | single (token : Span)
  | binary (left operator right : Span)
  | dangling (first second : Span)
  | unbalanced (first : Option Span)
  deriving DecidableEq, Repr

/-- What the pass keeps: the first token if it is complete, the offset at which the token that is
being read starts, and the number of parentheses that are open. -/
structure Pass where
  first : Option Span
  token : Option Nat
  depth : Nat
  deriving DecidableEq, Repr

namespace Pass

/-- Nothing is read. -/
def initial : Pass := ⟨none, none, 0⟩

/-- A token starts at this offset, unless it has started before. -/
def keep (p : Pass) (i : Nat) : Pass := { p with token := some (p.token.getD i) }

/-- One step: the pass goes on, or it ends early. -/
def step (p : Pass) (stop i : Nat) (sign : Sign) : Except Cut Pass :=
  if sign = .space ∧ p.depth = 0 then
    match p.token, p.first with
    | none, _ => .ok p
    | some start, none => .ok { p with first := some ⟨start, i⟩, token := none }
    -- Nothing behind the second token is looked at.
    | some start, some left => .error (.binary left ⟨start, i⟩ ⟨i + 1, stop⟩)
  else
    match sign.after p.depth with
    | none => .error (.unbalanced p.first)
    | some depth => .ok { p.keep i with depth }

/-- The end of the text. -/
def finish (p : Pass) (stop : Nat) : Cut :=
  if p.depth ≠ 0 then .unbalanced p.first
  else
    match p.first, p.token with
    | none, none => .empty
    | none, some start => .single ⟨start, stop⟩
    | some first, none => .single first
    | some first, some start => .dangling first ⟨start, stop⟩

/-- The pass from offset `i` on, over anything with a sign and a width. -/
def run {α : Type} (sign : α → Sign) (width : α → Nat) (stop : Nat) (p : Pass) (i : Nat) :
    List α → Cut
  | [] => p.finish stop
  | x :: xs =>
    match p.step stop i (sign x) with
    | .error cut => cut
    | .ok p => run sign width stop p (i + width x) xs

theorem keep_keep (p : Pass) (i j : Nat) : (p.keep i).keep j = p.keep i := rfl

end Pass

/-- The octets of a text. -/
def octets (text : String) : List UInt8 := text.toUTF8.data.toList

/-- The pass over the octets of a text. -/
def cutOctets (text : String) : Cut :=
  Pass.initial.run octetSign (fun _ => 1) text.utf8ByteSize 0 (octets text)

/-- The pass over the characters of a text. -/
def cutCharacters (text : String) : Cut :=
  Pass.initial.run charSign Char.utf8Size text.utf8ByteSize 0 text.toList

/-- The stretches that are cut off on the way. -/
def Cut.spans : Cut → List Span
  | .empty => []
  | .single token => [token]
  | .binary left operator right => [left, operator, right]
  | .dangling first second => [first, second]
  | .unbalanced first => first.toList

/-- Both ends lie in the text and between two characters, and in this order. -/
def Span.Valid (text : String) (s : Span) : Prop :=
  String.Pos.Raw.IsValid text ⟨s.start⟩ ∧ String.Pos.Raw.IsValid text ⟨s.stop⟩ ∧ s.start ≤ s.stop

instance (text : String) (s : Span) : Decidable (s.Valid text) :=
  inferInstanceAs (Decidable (_ ∧ _ ∧ _))

/-- The characters in a stretch of a text, if it can be cut off. -/
def Span.slice? (text : String) (s : Span) : Option (List Char) :=
  if h : s.Valid text then
    some (text.extract (text.pos ⟨s.start⟩ h.1) (text.pos ⟨s.stop⟩ h.2.1)).toList
  else none

/-- The number of parentheses left open after some octets, when `depth` were open before them. -/
def nestingOctets (depth : Nat) : List UInt8 → Option Nat
  | [] => some depth
  | b :: bs => ((octetSign b).after depth).bind fun d => nestingOctets d bs

/-- A token without the pair of parentheses that encloses all of its octets. -/
def unwrapOctets (token : List Char) : List Char :=
  match token with
  | '(' :: rest =>
    if rest.getLast? = some ')' ∧
        nestingOctets 0 (octets (String.ofList rest.dropLast)) = some 0 then
      rest.dropLast
    else token
  | _ => token

/-- The parts of a text that was cut, if each stretch can be cut off. -/
def Cut.parts? (text : String) : Cut → Option Split
  | .empty => some .empty
  | .single token => do return .single (unwrapOctets (← token.slice? text))
  | .binary left operator right => do
    let l ← left.slice? text
    let o ← operator.slice? text
    let r ← right.slice? text
    return .binary l o r
  | .dangling first second => do
    let _ ← first.slice? text
    let _ ← second.slice? text
    return .dangling
  | .unbalanced first => do
    let _ ← first.mapM (Span.slice? text)
    return .unbalanced

/-- Cuts a text by its octets at its first two tokens. -/
def splitOctets (text : String) : Option Split := (cutOctets text).parts? text

end LicenseAudit.Expr
