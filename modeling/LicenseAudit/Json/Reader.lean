import LicenseAudit.Text.Digits

/-!
# Reading JSON

A text is read into the values it writes. Strings may hold escapes that stand for no text, such as
half of a surrogate pair: they are found here and judged by whoever needs the text.
-/

namespace LicenseAudit.Json

/-- What is written in a JSON text. The text of a string is absent if its escapes give none. -/
inductive Reading where
  | null
  | bool (b : Bool)
  | number
  | str (text : Option String)
  | arr (items : List Reading)
  | obj (members : List (Option String × Reading))

/-- White space between tokens. -/
def isSpace (c : Char) : Bool := c = ' ' || c = '\t' || c = '\n' || c = '\r'

/-- The text from its first character that is no white space. -/
def skipSpace (cs : List Char) : List Char := cs.dropWhile isSpace

/-- A part of a string: a character, or an escaped code unit of 16 bits. -/
inductive Piece where
  | char (c : Char)
  | unit (n : Nat)
  deriving DecidableEq, Repr

/-- The character of an escape of two characters. -/
def shortEscape? (c : Char) : Option Char :=
  if c = '"' then some '"'
  else if c = '\\' then some '\\'
  else if c = '/' then some '/'
  else if c = 'b' then some '\x08'
  else if c = 'f' then some '\x0c'
  else if c = 'n' then some '\n'
  else if c = 'r' then some '\r'
  else if c = 't' then some '\t'
  else none

/-- The parts of a string up to its closing quote, and what follows the quote. -/
def readPieces : List Char → Option (List Piece × List Char)
  | [] => none
  | '"' :: rest => some ([], rest)
  | '\\' :: 'u' :: a :: b :: c :: d :: rest =>
    match Text.hexNumber? [a, b, c, d] with
    | some n => (readPieces rest).map fun p => (.unit n :: p.1, p.2)
    | none => none
  | '\\' :: c :: rest =>
    match shortEscape? c with
    | some c => (readPieces rest).map fun p => (.char c :: p.1, p.2)
    | none => none
  | c :: rest =>
    if c.toNat < 0x20 || c = '\\' then none
    else (readPieces rest).map fun p => (.char c :: p.1, p.2)

/-- The characters of a string: a code unit is a character or half of a pair. -/
def textOf : List Piece → Option (List Char)
  | [] => some []
  | .char c :: rest => (textOf rest).map (c :: ·)
  | .unit high :: .unit low :: rest =>
    if 0xD800 ≤ high ∧ high ≤ 0xDBFF then
      if 0xDC00 ≤ low ∧ low ≤ 0xDFFF then
        (textOf rest).map (Char.ofNat (0x10000 + (high - 0xD800) * 0x400 + (low - 0xDC00)) :: ·)
      else none
    else if 0xDC00 ≤ high ∧ high ≤ 0xDFFF then none
    else (textOf (.unit low :: rest)).map (Char.ofNat high :: ·)
  | .unit n :: rest =>
    if 0xD800 ≤ n ∧ n ≤ 0xDFFF then none else (textOf rest).map (Char.ofNat n :: ·)

/-- The text of a string after its opening quote, and what follows it. -/
def readString (cs : List Char) : Option (Option String × List Char) :=
  (readPieces cs).map fun p => ((textOf p.1).map String.ofList, p.2)

/-- What follows one or more digits. -/
def skipDigits (cs : List Char) : Option (List Char) :=
  match cs with
  | c :: rest => if c.isDigit then some (rest.dropWhile Char.isDigit) else none
  | [] => none

/-- What follows the digits of an integer, which has no leading zeros. -/
def skipInteger (cs : List Char) : Option (List Char) :=
  match cs with
  | '0' :: c :: rest => if c.isDigit then none else some (c :: rest)
  | _ => skipDigits cs

/-- What follows the fraction of a number, if it has one. -/
def skipFraction (cs : List Char) : Option (List Char) :=
  match cs with
  | '.' :: rest => skipDigits rest
  | _ => some cs

/-- What follows the sign of an exponent, if it has one. -/
def skipSign (cs : List Char) : List Char :=
  match cs with
  | '+' :: rest => rest
  | '-' :: rest => rest
  | _ => cs

/-- What follows the exponent of a number, if it has one. -/
def skipExponent (cs : List Char) : Option (List Char) :=
  match cs with
  | 'e' :: rest => skipDigits (skipSign rest)
  | 'E' :: rest => skipDigits (skipSign rest)
  | _ => some cs

/-- What follows a number. -/
def skipNumber (cs : List Char) : Option (List Char) := do
  let digits := match cs with
    | '-' :: rest => rest
    | _ => cs
  skipExponent (← skipFraction (← skipInteger digits))

mutual

/-- Reads a value. -/
def readValue : Nat → List Char → Option (Reading × List Char)
  | 0, _ => none
  | fuel + 1, cs =>
    match skipSpace cs with
    | 'n' :: 'u' :: 'l' :: 'l' :: rest => some (.null, rest)
    | 't' :: 'r' :: 'u' :: 'e' :: rest => some (.bool true, rest)
    | 'f' :: 'a' :: 'l' :: 's' :: 'e' :: rest => some (.bool false, rest)
    | '"' :: rest => (readString rest).map fun p => (.str p.1, p.2)
    | '[' :: rest =>
      match skipSpace rest with
      | ']' :: rest => some (.arr [], rest)
      | items => (readItems fuel items).map fun p => (.arr p.1, p.2)
    | '{' :: rest =>
      match skipSpace rest with
      | '}' :: rest => some (.obj [], rest)
      | members => (readMembers fuel members).map fun p => (.obj p.1, p.2)
    | cs => (skipNumber cs).map fun rest => (.number, rest)

/-- Reads the items of an array up to its end. -/
def readItems : Nat → List Char → Option (List Reading × List Char)
  | 0, _ => none
  | fuel + 1, cs =>
    match readValue fuel cs with
    | none => none
    | some (v, rest) =>
      match skipSpace rest with
      | ']' :: rest => some ([v], rest)
      | ',' :: rest => (readItems fuel rest).map fun p => (v :: p.1, p.2)
      | _ => none

/-- Reads the members of an object up to its end. -/
def readMembers : Nat → List Char → Option (List (Option String × Reading) × List Char)
  | 0, _ => none
  | fuel + 1, cs =>
    match skipSpace cs with
    | '"' :: rest =>
      match readString rest with
      | none => none
      | some (k, rest) =>
        match skipSpace rest with
        | ':' :: rest =>
          match readValue fuel rest with
          | none => none
          | some (v, rest) =>
            match skipSpace rest with
            | '}' :: rest => some ([(k, v)], rest)
            | ',' :: rest => (readMembers fuel rest).map fun p => ((k, v) :: p.1, p.2)
            | _ => none
        | _ => none
    | _ => none

end

/-- Reads a document: one value with white space around it. Each step down takes at most two steps
for a character, which bounds them all. -/
def read? (cs : List Char) : Option Reading :=
  match readValue (2 * cs.length + 2) cs with
  | some (v, rest) => if skipSpace rest = [] then some v else none
  | none => none

end LicenseAudit.Json
