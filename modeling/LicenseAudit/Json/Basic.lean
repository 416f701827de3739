/-!
# JSON values and their texts

Two layouts: one without white space, and one with a line for each item and two spaces for each
level. Both escape quotes, backslashes and control characters, and nothing else.
-/

namespace LicenseAudit

/-- The JSON values that are written. Members keep their order. -/
inductive Json where
  | null
  | bool (b : Bool)
  | nat (n : Nat)
  | str (s : String)
  | arr (items : List Json)
  | obj (members : List (String × Json))

namespace Json

/-- The lower-case hexadecimal digit of a number below 16. -/
def hexDigit (n : Nat) : Char := Nat.digitChar (n % 16)

/-- A character as it is written inside a string. -/
def escape (c : Char) : List Char :=
  if c = '"' then ['\\', '"']
  else if c = '\\' then ['\\', '\\']
  else if c = '\x08' then ['\\', 'b']
  else if c = '\x0c' then ['\\', 'f']
  else if c = '\n' then ['\\', 'n']
  else if c = '\r' then ['\\', 'r']
  else if c = '\t' then ['\\', 't']
  else if c.toNat < 0x20 then
    ['\\', 'u', '0', '0', hexDigit (c.toNat / 16), hexDigit c.toNat]
  else [c]

/-- A string with its quotes. -/
def quote (s : String) : List Char := '"' :: s.toList.flatMap escape ++ ['"']

mutual

/-- The text of a value without white space. -/
def compact : Json → List Char
  | null => ['n', 'u', 'l', 'l']
  | bool true => ['t', 'r', 'u', 'e']
  | bool false => ['f', 'a', 'l', 's', 'e']
  | nat n => (Nat.repr n).toList
  | str s => quote s
  | arr items => '[' :: compactItems items ++ [']']
  | obj members => '{' :: compactMembers members ++ ['}']

/-- The items of an array, with commas between them. -/
def compactItems : List Json → List Char
  | [] => []
  | [v] => compact v
  | v :: rest => compact v ++ ',' :: compactItems rest

/-- The members of an object, with commas between them. -/
def compactMembers : List (String × Json) → List Char
  | [] => []
  | [(k, v)] => quote k ++ ':' :: compact v
  | (k, v) :: rest => quote k ++ ':' :: compact v ++ ',' :: compactMembers rest

end

/-- A line break and the spaces of a level. -/
def newline (level : Nat) : List Char := '\n' :: List.replicate (2 * level) ' '

mutual

/-- The text of a value with a line for each item; the value itself starts on the given level. -/
def prettyAt (level : Nat) : Json → List Char
  | arr [] => ['[', ']']
  | obj [] => ['{', '}']
  | arr items => '[' :: prettyItems (level + 1) items ++ newline level ++ [']']
  | obj members => '{' :: prettyMembers (level + 1) members ++ newline level ++ ['}']
  | null => compact null
  | bool b => compact (bool b)
  | nat n => compact (nat n)
  | str s => compact (str s)

/-- The items of an array, each on its line. -/
def prettyItems (level : Nat) : List Json → List Char
  | [] => []
  | [v] => newline level ++ prettyAt level v
  | v :: rest => newline level ++ prettyAt level v ++ ',' :: prettyItems level rest

/-- The members of an object, each on its line. -/
def prettyMembers (level : Nat) : List (String × Json) → List Char
  | [] => []
  | [(k, v)] => newline level ++ quote k ++ ':' :: ' ' :: prettyAt level v
  | (k, v) :: rest =>
    newline level ++ quote k ++ ':' :: ' ' :: prettyAt level v ++ ',' :: prettyMembers level rest

end

/-- The text of a value with a line for each item. -/
def pretty (v : Json) : List Char := prettyAt 0 v

end Json

end LicenseAudit
