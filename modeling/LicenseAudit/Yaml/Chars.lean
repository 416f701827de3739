/-!
# Characters in YAML

Which characters a stream may hold, which ones end a line, and which ones may stand in names.
-/

namespace LicenseAudit.Yaml

/-- A character that ends a line. -/
def isBreak (c : Char) : Bool :=
  c = '\n' || c = '\r' || c = '\u0085' || c = '\u2028' || c = '\u2029'

/-- A space or a tab. -/
def isBlank (c : Char) : Bool := c = ' ' || c = '\t'

/-- Blanks, breaks and the end of the stream separate words. -/
def atGap (cs : List Char) : Bool :=
  match cs with
  | [] => true
  | c :: _ => isBlank c || isBreak c

/-- A character that a stream may hold. -/
def isAllowed (c : Char) : Bool :=
  let n := c.toNat
  n = 9 || n = 10 || n = 13 || (0x20 ≤ n && n ≤ 0x7E) || n = 0x85 || (0xA0 ≤ n && n ≤ 0xD7FF) ||
    (0xE000 ≤ n && n ≤ 0xFFFD) || 0x10000 ≤ n

/-- A character of anchors and tag handles. -/
def isNameChar (c : Char) : Bool := c.isAlphanum || c = '_' || c = '-'

/-- What a line break stands for in a scalar: the two separators are kept, all others are line
feeds. -/
def breakText (c : Char) : List Char := if c = '\u2028' || c = '\u2029' then [c] else ['\n']

/-- A line that starts with this marker and a gap ends the document. -/
def startsMarker (cs : List Char) : Bool :=
  match cs with
  | '-' :: '-' :: '-' :: rest => atGap rest
  | '.' :: '.' :: '.' :: rest => atGap rest
  | _ => false

/-- The place of a character: characters and line breaks before it, and its column. -/
structure Mark where
  index : Nat
  line : Nat
  column : Nat
  deriving DecidableEq, Repr

namespace Mark

/-- The start of a stream. -/
def start : Mark := ⟨0, 0, 0⟩

/-- The place behind a character. -/
def next (m : Mark) (c : Char) : Mark :=
  if isBreak c then ⟨m.index + 1, m.line + 1, 0⟩ else ⟨m.index + 1, m.line, m.column + 1⟩

/-- The place behind some characters without breaks. -/
def skip (m : Mark) (n : Nat) : Mark := ⟨m.index + n, m.line, m.column + n⟩

end Mark

/-- A place between tokens. It is fresh if a key may start there. -/
structure Place where
  mark : Mark
  fresh : Bool
  rest : List Char

/-- The place of the next token. Comments and line breaks are skipped, and outside flow collections
a new line is a fresh place; there a tab may not stand before a token. A byte order mark may start a
line. -/
def toToken (flow fresh comment : Bool) (m : Mark) : List Char → Place
  | [] => ⟨m, fresh, []⟩
  | c :: rest =>
    if isBreak c then toToken flow (fresh || !flow) false (m.next c) rest
    else if comment then toToken flow fresh true (m.next c) rest
    else if c = ' ' || (c = '\t' && (flow || !fresh)) || (c = '\uFEFF' && m.column = 0) then
      toToken flow fresh false (m.next c) rest
    else if c = '#' then toToken flow fresh true (m.next c) rest
    else ⟨m, fresh, c :: rest⟩

namespace Place

/-- The place of the next token. -/
def advance (p : Place) (flow : Bool) : Place := toToken flow p.fresh false p.mark p.rest

/-- The column of a place. -/
def column (p : Place) : Nat := p.mark.column

/-- The document ends here. -/
def atEnd (p : Place) : Bool := p.rest.isEmpty || (p.column = 0 && startsMarker p.rest)

end Place

end LicenseAudit.Yaml
