import LicenseAudit.Text.Decimal
import LicenseAudit.Yaml.Boolean

/-!
# Writing keys

How a text is written as a key so that it reads back as that text. A text that looks like a number,
a Boolean or nothing is quoted, and so is one that would end early or start something else. Line
feeds make it a literal block, and characters that cannot be printed need escapes.
-/

namespace LicenseAudit.Yaml

/-- A character that is written as it is. -/
def isPrintable (c : Char) : Bool :=
  let n := c.toNat
  n = 0x0A || (0x20 ≤ n && n ≤ 0x7E) || (0xA0 ≤ n && n ≤ 0xD7FF) ||
    (0xE000 ≤ n && n ≤ 0xFFFD && n ≠ 0xFEFF) || 0x10000 ≤ n

/-- Some digits of a base whose number is not too large. -/
def isNumeral (base limit : Nat) (ds : List Char) : Bool :=
  ds ≠ [] && ds.all (Text.isDigitOf base) && Text.numberIn base ds ≤ limit

/-- Digits after a leading zero, which are no number. -/
def isZeroPadded (cs : List Char) : Bool :=
  match Text.withoutSign cs with
  | '0' :: c :: rest => (c :: rest).all Char.isDigit
  | _ => false

/-- An integer of at most 128 bits, in base 10 or behind the mark of base 16, 8 or 2. The least
negative number has no positive partner. -/
def isInteger (cs : List Char) : Bool :=
  let limit := if cs.head? = some '-' then Nat.pow 2 127 else Nat.pow 2 128 - 1
  match Text.withoutSign cs with
  | '0' :: 'x' :: ds => isNumeral 16 limit ds
  | '0' :: 'o' :: ds => isNumeral 8 limit ds
  | '0' :: 'b' :: ds => isNumeral 2 limit ds
  | ds => !isZeroPadded cs && isNumeral 10 limit ds

/-- A number with a point or an exponent, an infinity or no number at all, as they are spelled. -/
def isReal (cs : List Char) : Bool :=
  [".nan", ".NaN", ".NAN"].contains (String.ofList cs) ||
    [".inf", ".Inf", ".INF"].contains (String.ofList (Text.withoutSign cs)) ||
    (!isZeroPadded cs && (Text.Decimal.read? (Text.withoutSign cs)).any Text.Decimal.fitsDouble)

/-- A text that would not be read back as a text, or not by all readers. -/
def isAmbiguous (cs : List Char) : Bool :=
  cs = [] || ["null", "Null", "NULL", "~"].contains (String.ofList cs) || (boolean? cs).isSome ||
    isInteger cs || isReal cs || isZeroPadded cs

/-- Two neighbouring characters with these properties. -/
def hasPair (p q : Char → Bool) : List Char → Bool
  | a :: b :: rest => (p a && q b) || hasPair p q (b :: rest)
  | _ => false

/-- A character that starts something else than a plain scalar, when `after` follows. -/
def startsOther (c : Char) (after : List Char) : Bool :=
  isIndicator c || ((c = '?' || c = ':' || c = '-') && atGap after)

/-- A plain scalar would end inside this text: a colon before a gap, or a number sign behind one. -/
def endsInside : List Char → Bool
  | [] => false
  | c :: rest => (c = ':' && atGap rest) || (isBlank c && rest.head? = some '#') || endsInside rest

/-- Three dashes or points at the start. -/
def startsLikeMarker (cs : List Char) : Bool :=
  cs.take 3 = ['-', '-', '-'] || cs.take 3 = ['.', '.', '.']

/-- The text can be written without quotes. -/
def plainAllowed (cs : List Char) : Bool :=
  match cs with
  | [] => false
  | c :: rest =>
    cs.all isPrintable && !cs.any isBreak && c ≠ ' ' && cs.getLast? ≠ some ' ' &&
      !startsOther c rest && !endsInside cs && !startsLikeMarker cs

/-- The text can be written in single quotes, which know no escapes. -/
def singleAllowed (cs : List Char) : Bool :=
  cs.all isPrintable && !hasPair isBreak (· = ' ') cs && !hasPair (· = ' ') isBreak cs

/-- The text can be written as a literal block. -/
def literalAllowed (cs : List Char) : Bool :=
  cs.all isPrintable && !hasPair (· = ' ') isBreak cs && cs.getLast? ≠ some ' '

/-- The style in which a key is written. -/
def keyStyle (cs : List Char) : Style :=
  if cs.contains '\n' then (if literalAllowed cs then .literal else .doubleQuoted)
  else if plainAllowed cs && !isAmbiguous cs then .plain
  else if singleAllowed cs then .singleQuoted
  else .doubleQuoted

/-- The indentation of lines inside a key. -/
def indent : List Char := [' ', ' ']

/-- The text between single quotes. A line that a break starts is indented, which does not count
when it is read. -/
def singleBody (afterBreak : Bool) : List Char → List Char
  | [] => if afterBreak then indent else []
  | c :: rest =>
    if isBreak c then c :: singleBody true rest
    else
      (if afterBreak then indent else []) ++
        (if c = '\'' then ['\'', '\''] else [c]) ++ singleBody false rest

/-- A character between double quotes. -/
def escape (c : Char) : List Char :=
  if c = '\x00' then ['\\', '0']
  else if c = '\x07' then ['\\', 'a']
  else if c = '\x08' then ['\\', 'b']
  else if c = '\t' then ['\\', 't']
  else if c = '\n' then ['\\', 'n']
  else if c = '\x0b' then ['\\', 'v']
  else if c = '\x0c' then ['\\', 'f']
  else if c = '\r' then ['\\', 'r']
  else if c = '\x1b' then ['\\', 'e']
  else if c = '"' then ['\\', '"']
  else if c = '\\' then ['\\', '\\']
  else if c = '\u0085' then ['\\', 'N']
  else if c = '\u2028' then ['\\', 'L']
  else if c = '\u2029' then ['\\', 'P']
  else if isPrintable c then [c]
  else if c.toNat ≤ 0xFF then '\\' :: 'x' :: Text.hexDigits 2 c.toNat
  else if c.toNat ≤ 0xFFFF then '\\' :: 'u' :: Text.hexDigits 4 c.toNat
  else '\\' :: 'U' :: Text.hexDigits 8 c.toNat

/-- The lines of a literal block: each one is indented, blank ones are not. -/
def literalBody (afterBreak : Bool) : List Char → List Char
  | [] => []
  | c :: rest =>
    if isBreak c then c :: literalBody true rest
    else (if afterBreak then indent else []) ++ c :: literalBody false rest

/-- The indicator for the breaks at the end of a literal block: none or several are told apart from
one. -/
def chompingIndicator (cs : List Char) : List Char :=
  match cs.reverse with
  | [] => ['-']
  | [c] => if isBreak c then ['+'] else ['-']
  | c :: d :: _ => if !isBreak c then ['-'] else if isBreak d then ['+'] else []

/-- A literal block. Its indentation is given if it could not be told from the first line. -/
def literalText (cs : List Char) : List Char :=
  '|' :: (if cs.head?.any fun c => c = ' ' || isBreak c then ['2'] else []) ++
    chompingIndicator cs ++ '\n' :: literalBody true cs

/-- The text of a key in its style. -/
def keyText (cs : List Char) : List Char :=
  match keyStyle cs with
  | .plain => cs
  | .singleQuoted => '\'' :: singleBody false cs ++ ['\'']
  | .doubleQuoted => '"' :: cs.flatMap escape ++ ['"']
  | _ => literalText cs

/-- Keys that are longer than this many bytes, or hold line breaks, are announced by a question
mark. -/
def simpleKeyBytes : Nat := 128

/-- The key stands before its colon on one line. -/
def isSimpleKey (cs : List Char) : Bool :=
  !cs.any isBreak && (String.ofList cs).utf8ByteSize ≤ simpleKeyBytes

/-- A line break, unless the text before it ends in one. -/
def endLine (text : List Char) : List Char :=
  if text.getLast?.any isBreak then [] else ['\n']

/-- The text of a Boolean. -/
def booleanText (b : Bool) : List Char := if b then "true".toList else "false".toList

/-- An entry of a mapping. -/
def entryText (key : List Char) (value : Bool) : List Char :=
  if isSimpleKey key then keyText key ++ ':' :: ' ' :: booleanText value ++ ['\n']
  else
    '?' :: ' ' :: keyText key ++ endLine (keyText key) ++ ':' :: ' ' :: booleanText value ++ ['\n']

/-- A mapping of texts to Booleans. -/
def mappingText (entries : List (String × Bool)) : List Char :=
  match entries with
  | [] => ['{', '}', '\n']
  | _ => entries.flatMap fun e => entryText e.1.toList e.2

end LicenseAudit.Yaml
