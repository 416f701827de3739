/-!
# The top level of an expression

A token is a stretch of text without spaces outside parentheses. An expression is cut at its first
two tokens: what follows the second one is left as it is, so operators group to the right.

Main statement: what a cut-off token and the rest hold together is the text that was read
(`takeToken_some`).
-/

namespace LicenseAudit.Expr

/-- The number of parentheses left open after a text, when `depth` were open before it; none if one
is closed that was not open. -/
def nesting (depth : Nat) : List Char → Option Nat
  | [] => some depth
  | c :: cs =>
    if c = '(' then nesting (depth + 1) cs
    else if c = ')' then
      match depth with
      | 0 => none
      | d + 1 => nesting d cs
    else nesting depth cs

/-- Every parenthesis has its partner. -/
def balanced (cs : List Char) : Bool := nesting 0 cs = some 0

/-- The text up to the first space outside parentheses, and what follows that space: nothing at all
if the text ends before one. There is no token if a parenthesis has no partner in it. -/
def takeToken (depth : Nat) : List Char → Option (List Char × Option (List Char))
  | [] => if depth = 0 then some ([], none) else none
  | c :: cs =>
    if c = ' ' ∧ depth = 0 then some ([], some cs)
    else if c = '(' then (takeToken (depth + 1) cs).map fun t => (c :: t.1, t.2)
    else if c = ')' then
      match depth with
      | 0 => none
      | d + 1 => (takeToken d cs).map fun t => (c :: t.1, t.2)
    else (takeToken depth cs).map fun t => (c :: t.1, t.2)

/-- A token without the pair of parentheses that encloses all of it. -/
def unwrap (token : List Char) : List Char :=
  match token with
  | '(' :: rest =>
    if rest.getLast? = some ')' ∧ balanced rest.dropLast then rest.dropLast else token
  | _ => token

/-- The text from its first character that is no space. -/
def dropSpaces (cs : List Char) : List Char := cs.dropWhile (· = ' ')

/-- What stands at the top level of an expression. -/
inductive Split where
  /-- Only spaces. -/
  | empty
  /-- One token, without its enclosing parentheses. -/
  | single (token : List Char)
  /-- Two tokens and all that follows the space behind the second one. -/
  | binary (left operator right : List Char)
  /-- Two tokens, and the text ends. -/
  | dangling
  /-- A parenthesis without a partner. -/
  | unbalanced
  deriving DecidableEq, Repr

/-- Cuts an expression at its first two tokens. -/
def split (cs : List Char) : Split :=
  match dropSpaces cs with
  | [] => .empty
  | start =>
    match takeToken 0 start with
    | none => .unbalanced
    | some (first, none) => .single (unwrap first)
    | some (first, some rest) =>
      match dropSpaces rest with
      | [] => .single (unwrap first)
      | next =>
        match takeToken 0 next with
        | none => .unbalanced
        | some (_, none) => .dangling
        -- The operands keep their parentheses, which count when they are read.
        | some (second, some right) => .binary first second right

/-- Putting a character before a token keeps the token and its rest together. -/
theorem cons_eq_of_map_takeToken {depth : Nat} {c : Char} {cs token : List Char}
    {rest : Option (List Char)}
    (ih : ∀ {t : List Char} {r : Option (List Char)}, takeToken depth cs = some (t, r) →
      cs = t ++ r.elim [] (' ' :: ·))
    (h : (takeToken depth cs).map (fun t => (c :: t.1, t.2)) = some (token, rest)) :
    c :: cs = token ++ rest.elim [] (' ' :: ·) := by
  obtain ⟨⟨t, r⟩, ht, heq⟩ := Option.map_eq_some_iff.1 h
  obtain ⟨rfl, rfl⟩ := Prod.mk.inj heq
  rw [ih ht, List.cons_append]

/-- A token and the rest hold the text that was read. -/
theorem takeToken_some {depth : Nat} {cs token : List Char} {rest : Option (List Char)}
    (h : takeToken depth cs = some (token, rest)) :
    cs = token ++ rest.elim [] (' ' :: ·) := by
  induction cs generalizing depth token rest with
  | nil =>
    by_cases hd : depth = 0
    · obtain ⟨rfl, rfl⟩ := by simpa [takeToken, hd] using h
      rfl
    · simp [takeToken, hd] at h
  | cons c cs ih =>
    rw [takeToken.eq_def] at h
    dsimp only at h
    split at h
    · next hc =>
      obtain ⟨rfl, rfl⟩ := Prod.mk.inj (Option.some.inj h)
      simp [hc.1]
    · split at h
      · exact cons_eq_of_map_takeToken ih h
      · split at h
        · cases depth with
          | zero => simp at h
          | succ d => exact cons_eq_of_map_takeToken ih h
        · exact cons_eq_of_map_takeToken ih h

end LicenseAudit.Expr
