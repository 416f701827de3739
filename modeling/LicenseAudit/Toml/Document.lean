import LicenseAudit.Toml.Table
import LicenseAudit.Toml.Value

/-!
# Documents in TOML

A document has a line for each key and for each header. Values may nest, but not too deep.
-/

namespace LicenseAudit.Toml

/-- Arrays and tables in braces may not nest as deep as this, and a key has fewer parts. -/
def depthLimit : Nat := 80

/-- A character of a key without quotes. -/
def isBareKeyChar (c : Char) : Bool := c.isAlphanum || c = '_' || c = '-'

/-- Reads one part of a key. -/
def readKeyPart (cs : List Char) : Option (String × List Char) :=
  match cs with
  | '"' :: rest => (readBasic rest).map fun r => (String.ofList r.1, r.2)
  | '\'' :: rest => (readLiteral rest).map fun r => (String.ofList r.1, r.2)
  | _ =>
    let part := cs.takeWhile isBareKeyChar
    if part = [] then none else some (String.ofList part, cs.dropWhile isBareKeyChar)

/-- Reads the parts of a key, with points between them, and the blanks behind it. -/
def readKeyParts : Nat → List Char → Option (List String × List Char)
  | 0, _ => none
  | fuel + 1, cs => do
    let (part, rest) ← readKeyPart (skipBlanks cs)
    match skipBlanks rest with
    | '.' :: rest =>
      let (parts, rest) ← readKeyParts fuel rest
      return (part :: parts, rest)
    | rest => return ([part], rest)

/-- Reads a key: the parts that lead to its table, and the last one. -/
def readKey (cs : List Char) : Option (List String × String × List Char) := do
  let (parts, rest) ← readKeyParts depthLimit cs
  if depthLimit ≤ parts.length then none
  else return (parts.dropLast, ← parts.getLast?, rest)

mutual

/-- Reads a value inside so many arrays and tables in braces. -/
def readValue (depth : Nat) : Nat → List Char → Option (Entry × List Char)
  | 0, _ => none
  | fuel + 1, cs =>
    match cs with
    | '[' :: rest =>
      if depthLimit ≤ depth + 1 then none else readItems (depth + 1) fuel 0 (skipLines false rest)
    | '{' :: rest =>
      if depthLimit ≤ depth + 1 then none
      else
        match skipBlanks rest with
        | '}' :: rest => some (.inline false [], rest)
        | rest => readMembers (depth + 1) fuel [] rest
    | '"' :: _ => (readString cs).map fun r => (.string (String.ofList r.1), r.2)
    | '\'' :: _ => (readString cs).map fun r => (.string (String.ofList r.1), r.2)
    | _ => (skipScalar cs).map fun rest => (.scalar, rest)

/-- Reads the items of an array up to its end; a comma may stand behind the last one. -/
def readItems (depth : Nat) : Nat → Nat → List Char → Option (Entry × List Char)
  | 0, _, _ => none
  | fuel + 1, size, cs =>
    match cs with
    | ']' :: rest => some (.array size, rest)
    | _ =>
      match readValue depth fuel cs with
      | none => none
      | some (_, rest) =>
        match skipLines false rest with
        | ',' :: rest => readItems depth fuel (size + 1) (skipLines false rest)
        | ']' :: rest => some (.array (size + 1), rest)
        | _ => none

/-- Reads the keys of a table in braces up to its end. -/
def readMembers (depth : Nat) : Nat → Entries → List Char → Option (Entry × List Char)
  | 0, _, _ => none
  | fuel + 1, es, cs =>
    match readKey cs with
    | some (path, key, '=' :: rest) =>
      match readValue depth fuel (skipBlanks rest) with
      | none => none
      | some (value, rest) =>
        match addInline key value path es with
        | none => none
        | some es =>
          match skipBlanks rest with
          | ',' :: rest => readMembers depth fuel es rest
          | '}' :: rest => some (.inline false es, rest)
          | _ => none
    | _ => none

end

/-- What follows the rest of a line: blanks and a comment at most. -/
def skipLineEnd (cs : List Char) : Option (List Char) :=
  match skipComment (skipBlanks cs) with
  | [] => some []
  | rest => lineBreak? rest

/-- Reads a header: its path, whether it opens a member of an array of tables, and what follows its
brackets. -/
def readHeader (cs : List Char) : Option (List String × Bool × List Char) :=
  match cs with
  | '[' :: rest =>
    match readKey rest with
    | some (path, key, ']' :: ']' :: rest) => some (path ++ [key], true, rest)
    | _ => none
  | _ =>
    match readKey cs with
    | some (path, key, ']' :: rest) => some (path ++ [key], false, rest)
    | _ => none

/-- Reads lines into the tables of a document; `table` is the path of the last header. -/
def readLines (table : List String) (root : Entries) : Nat → List Char → Option Entries
  | 0, _ => none
  | fuel + 1, cs =>
    match skipBlanks cs with
    | [] => some root
    | '[' :: rest => do
      let (path, member, rest) ← readHeader rest
      readLines path (← openTable member path root) fuel (← skipLineEnd rest)
    | c :: rest =>
      if c = '#' || c = '\n' || c = '\r' then do
        readLines table root fuel (← skipLineEnd (c :: rest))
      else
        match readKey (c :: rest) with
        | some (path, key, '=' :: rest) => do
          let (value, rest) ← readValue 0 (rest.length + 1) (skipBlanks rest)
          readLines table (← addAt table path key value root) fuel (← skipLineEnd rest)
        | _ => none

/-- Reads a document. A byte order mark may stand before it. -/
def read? (cs : List Char) : Option Entries :=
  let cs :=
    match cs with
    | '\uFEFF' :: rest => rest
    | _ => cs
  readLines [] [] (cs.length + 1) cs

end LicenseAudit.Toml
