import LicenseAudit.Text.Decimal
import LicenseAudit.Text.Digits

/-!
# Simple values in TOML

Strings, numbers, Booleans and dates. Of numbers, Booleans and dates only their form counts, as
nothing is configured by them.
-/

namespace LicenseAudit.Toml

/-- A space or a tab. -/
def isBlank (c : Char) : Bool := c = ' ' || c = '\t'

/-- A character that may stand in comments, and in strings if it is no quote or backslash. -/
def isText (c : Char) : Bool := c = '\t' || (0x20 ≤ c.toNat && c.toNat ≤ 0x7E) || 0x80 ≤ c.toNat

/-- The text from its first character that is no blank. -/
def skipBlanks (cs : List Char) : List Char := cs.dropWhile isBlank

/-- What follows a line break, if one stands here. -/
def lineBreak? (cs : List Char) : Option (List Char) :=
  match cs with
  | '\n' :: rest => some rest
  | '\r' :: '\n' :: rest => some rest
  | _ => none

/-- What follows a comment, if one stands here. -/
def skipComment (cs : List Char) : List Char :=
  match cs with
  | '#' :: rest => rest.dropWhile isText
  | _ => cs

/-- What follows blanks, comments and line breaks. -/
def skipLines (comment : Bool) : List Char → List Char
  | [] => []
  | '\r' :: '\n' :: rest => skipLines false rest
  | c :: rest =>
    if c = '\n' then skipLines false rest
    else if comment && isText c then skipLines true rest
    else if !comment && isBlank c then skipLines false rest
    else if !comment && c = '#' then skipLines true rest
    else c :: rest

/-- The character of an escape of two characters. -/
def shortEscape? (c : Char) : Option Char :=
  if c = 'b' then some '\x08'
  else if c = 't' then some '\t'
  else if c = 'n' then some '\n'
  else if c = 'f' then some '\x0c'
  else if c = 'r' then some '\r'
  else if c = '"' || c = '\\' then some c
  else none

/-- A text that was read and what follows it. -/
abbrev Read := List Char × List Char

/-- One more character in front, if there is one. -/
def push (c : Option Char) (r : Option Read) : Option Read :=
  match c, r with
  | some c, some (text, rest) => some (c :: text, rest)
  | _, _ => none

/-- Reads a string up to its closing double quote. -/
def readBasic : List Char → Option Read
  | [] => none
  | '"' :: rest => some ([], rest)
  | '\\' :: 'u' :: a :: b :: c :: d :: rest => push (Text.hexChar? [a, b, c, d]) (readBasic rest)
  | '\\' :: 'U' :: a :: b :: c :: d :: e :: f :: g :: h :: rest =>
    push (Text.hexChar? [a, b, c, d, e, f, g, h]) (readBasic rest)
  | '\\' :: c :: rest => push (shortEscape? c) (readBasic rest)
  | c :: rest => if isText c && c ≠ '\\' then push (some c) (readBasic rest) else none

/-- Reads a string up to its closing single quote. -/
def readLiteral (cs : List Char) : Option Read :=
  match cs.dropWhile fun c => isText c && c ≠ '\'' with
  | '\'' :: rest => some (cs.takeWhile fun c => isText c && c ≠ '\'', rest)
  | _ => none

/-- Quotes before the three that close a string of several lines: at most two belong to the text. -/
def closing (q : Char) (cs : List Char) : Option Read :=
  let quotes := (cs.takeWhile (· = q)).length
  if 3 ≤ quotes ∧ quotes ≤ 5 then some (List.replicate (quotes - 3) q, cs.drop quotes) else none

/-- Reads a string of several lines up to its three closing single quotes. -/
def readLongLiteral : List Char → Option Read
  | [] => none
  | '\r' :: '\n' :: rest => push (some '\n') (readLongLiteral rest)
  | '\'' :: '\'' :: '\'' :: rest => closing '\'' ('\'' :: '\'' :: '\'' :: rest)
  | c :: rest => if isText c || c = '\n' then push (some c) (readLongLiteral rest) else none

/-- Only blanks stand before the next line break. -/
def endsLine (cs : List Char) : Bool := (lineBreak? (skipBlanks cs)).isSome

/-- Reads a string of several lines up to its three closing double quotes. `joining` tells that the
line break of the current line was escaped, so white space is dropped. -/
def readLongBasic (joining : Bool) : List Char → Option Read
  | [] => none
  | '\r' :: '\n' :: rest =>
    if joining then readLongBasic true rest else push (some '\n') (readLongBasic false rest)
  | '"' :: '"' :: '"' :: rest => closing '"' ('"' :: '"' :: '"' :: rest)
  | '\\' :: 'u' :: a :: b :: c :: d :: rest =>
    push (Text.hexChar? [a, b, c, d]) (readLongBasic false rest)
  | '\\' :: 'U' :: a :: b :: c :: d :: e :: f :: g :: h :: rest =>
    push (Text.hexChar? [a, b, c, d, e, f, g, h]) (readLongBasic false rest)
  | '\\' :: c :: rest =>
    if endsLine (c :: rest) then readLongBasic true (c :: rest)
    else push (shortEscape? c) (readLongBasic false rest)
  | c :: rest =>
    if joining && (isBlank c || c = '\n') then readLongBasic true rest
    else if (isText c && c ≠ '\\') || c = '\n' then push (some c) (readLongBasic false rest)
    else none

/-- A line break right behind three opening quotes does not count. -/
def dropFirstBreak (cs : List Char) : List Char := (lineBreak? cs).getD cs

/-- Reads a string of any kind. -/
def readString (cs : List Char) : Option Read :=
  match cs with
  | '"' :: '"' :: '"' :: rest => readLongBasic false (dropFirstBreak rest)
  | '"' :: rest => readBasic rest
  | '\'' :: '\'' :: '\'' :: rest => readLongLiteral (dropFirstBreak rest)
  | '\'' :: rest => readLiteral rest
  | _ => none

/-- Digits with single underscores between them. -/
def isDigits (digit : Char → Bool) : List Char → Bool
  | [] => false
  | [c] => digit c
  | c :: '_' :: rest => digit c && isDigits digit rest
  | c :: rest => digit c && isDigits digit rest

/-- The value of some digits, which may have underscores between them. -/
def valueOf (base : Nat) (cs : List Char) : Nat := Text.numberIn base (cs.filter (· ≠ '_'))

/-- An integer part: zero, or digits that do not start with one. -/
def isWhole (cs : List Char) : Bool :=
  isDigits Char.isDigit cs && (cs = ['0'] || cs.head? ≠ some '0')

/-- An integer of 64 bits, in base 10 or behind the mark of base 16, 8 or 2. -/
def isInteger (cs : List Char) : Bool :=
  match cs with
  | '0' :: 'x' :: ds => isDigits (Text.isDigitOf 16) ds && valueOf 16 ds < Nat.pow 2 63
  | '0' :: 'o' :: ds => isDigits (Text.isDigitOf 8) ds && valueOf 8 ds < Nat.pow 2 63
  | '0' :: 'b' :: ds => isDigits (Text.isDigitOf 2) ds && valueOf 2 ds < Nat.pow 2 63
  | _ =>
    let ds := Text.withoutSign cs
    isWhole ds && valueOf 10 ds < Nat.pow 2 63 + (if cs.head? = some '-' then 1 else 0)

/-- An exponent behind its mark. -/
def isExponent (cs : List Char) : Bool := isDigits Char.isDigit (Text.withoutSign cs)

/-- A fraction behind its point, with an exponent or without one. -/
def isFraction (cs : List Char) : Bool :=
  let digit := fun c : Char => c.isDigit || c = '_'
  isDigits Char.isDigit (cs.takeWhile digit) &&
    match cs.dropWhile digit with
    | [] => true
    | c :: rest => (c = 'e' || c = 'E') && isExponent rest

/-- A number with a fraction or an exponent, or one of the two special ones. A positive number must
have a finite double-precision number next to it. -/
def isFloat (cs : List Char) : Bool :=
  let ds := Text.withoutSign cs
  let digit := fun c : Char => c.isDigit || c = '_'
  if ds = ['i', 'n', 'f'] || ds = ['n', 'a', 'n'] then true
  else
    isWhole (ds.takeWhile digit) &&
      (match ds.dropWhile digit with
        | [] => false
        | c :: rest =>
          (c = '.' && isFraction rest) || ((c = 'e' || c = 'E') && isExponent rest)) &&
      -- A number below zero may be as large as it likes.
      (cs.head? = some '-' ||
        (Text.Decimal.read? (ds.filter (· ≠ '_'))).any Text.Decimal.fitsDouble)

/-- The number of exactly so many digits, and what follows them. -/
def readDigits (count : Nat) (cs : List Char) : Option (Nat × List Char) :=
  if (cs.take count).length = count ∧ (cs.take count).all Char.isDigit then
    some (valueOf 10 (cs.take count), cs.drop count)
  else none

/-- What follows one character. -/
def after? (c : Char) (cs : List Char) : Option (List Char) :=
  if cs.head? = some c then some cs.tail else none

/-- The number of days of a month. -/
def daysOf (year month : Nat) : Nat :=
  if month = 2 then
    if year % 4 = 0 && (year % 100 ≠ 0 || year % 400 = 0) then 29 else 28
  else if month = 4 || month = 6 || month = 9 || month = 11 then 30
  else 31

/-- What follows a date. -/
def skipDate (cs : List Char) : Option (List Char) := do
  let (year, cs) ← readDigits 4 cs
  let (month, cs) ← readDigits 2 (← after? '-' cs)
  let (day, cs) ← readDigits 2 (← after? '-' cs)
  if 1 ≤ month && month ≤ 12 && 1 ≤ day && day ≤ daysOf year month then some cs else none

/-- What follows hours and minutes. -/
def skipHours (cs : List Char) : Option (List Char) := do
  let (hour, cs) ← readDigits 2 cs
  let (minute, cs) ← readDigits 2 (← after? ':' cs)
  if hour ≤ 23 && minute ≤ 59 then some cs else none

/-- What follows a time; its seconds may have a fraction. -/
def skipTime (cs : List Char) : Option (List Char) := do
  let (second, cs) ← readDigits 2 (← after? ':' (← skipHours cs))
  if 60 < second then none
  else
    match cs with
    | '.' :: rest =>
      if rest.head?.any Char.isDigit then some (rest.dropWhile Char.isDigit) else none
    | _ => some cs

/-- An offset from universal time, or none. -/
def isOffset (cs : List Char) : Bool :=
  match cs with
  | [] => true
  | ['Z'] => true
  | ['z'] => true
  | '+' :: rest => skipHours rest = some []
  | '-' :: rest => skipHours rest = some []
  | _ => false

/-- A time with an offset or without one. -/
def isTimeWithOffset (cs : List Char) : Bool := (skipTime cs).any isOffset

/-- A date, a time, or both with a letter between them. -/
def isDateTime (cs : List Char) : Bool :=
  match skipDate cs with
  | some [] => true
  | some (c :: rest) => (c = 'T' || c = 't') && isTimeWithOffset rest
  | none => skipTime cs = some []

/-- A character of numbers, Booleans and dates. -/
def isWordChar (c : Char) : Bool :=
  c.isAlphanum || c = '_' || c = '+' || c = '-' || c = '.' || c = ':'

/-- A number, a Boolean, a date or a time. -/
def isScalar (word : List Char) : Bool :=
  word = ['t', 'r', 'u', 'e'] || word = ['f', 'a', 'l', 's', 'e'] || isInteger word ||
    isFloat word || isDateTime word

/-- What follows a number, a Boolean, a date or a time. A space may stand between a date and its
time. -/
def skipScalar (cs : List Char) : Option (List Char) :=
  let word := cs.takeWhile isWordChar
  let rest := cs.dropWhile isWordChar
  match skipDate word, rest with
  | some [], ' ' :: c :: more =>
    if c.isDigit then
      if isTimeWithOffset ((c :: more).takeWhile isWordChar) then
        some ((c :: more).dropWhile isWordChar)
      else none
    else some rest
  | _, _ => if isScalar word then some rest else none

end LicenseAudit.Toml
