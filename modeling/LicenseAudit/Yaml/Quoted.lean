import LicenseAudit.Text.Digits
import LicenseAudit.Yaml.Chars

/-!
# Quoted scalars

A quoted scalar is first cut into its pieces, which takes its escapes away, and then its line breaks
are folded: a single one is a space, and of several ones the first is dropped.
-/

namespace LicenseAudit.Yaml

/-- A piece of a quoted scalar: a character as written, one that was escaped and so is never folded,
or an escaped line break. -/
inductive Piece where
  | text (c : Char)
  | escaped (c : Char)
  | joint
  deriving DecidableEq, Repr

/-- What was cut off a quoted scalar, and where it ends. -/
structure Pieces where
  pieces : List Piece
  mark : Mark
  rest : List Char

/-- One more piece in front. -/
def Pieces.push (p : Piece) (ps : Pieces) : Pieces := { ps with pieces := p :: ps.pieces }

/-- The pieces up to the closing quote; a quote inside is written twice. -/
def singlePieces (m : Mark) : List Char → Option Pieces
  | [] => none
  | '\'' :: '\'' :: rest => (singlePieces (m.skip 2) rest).map (.push (.escaped '\''))
  | c :: rest =>
    if c = '\'' then some ⟨[], m.skip 1, rest⟩
    else (singlePieces (m.next c) rest).map (.push (.text c))

/-- The character of an escape of two characters. -/
def shortEscape? (c : Char) : Option Char :=
  if c = '0' then some '\x00'
  else if c = 'a' then some '\x07'
  else if c = 'b' then some '\x08'
  else if c = 't' || c = '\t' then some '\t'
  else if c = 'n' then some '\n'
  else if c = 'v' then some '\x0b'
  else if c = 'f' then some '\x0c'
  else if c = 'r' then some '\r'
  else if c = 'e' then some '\x1b'
  else if c = ' ' || c = '"' || c = '/' || c = '\\' then some c
  else if c = 'N' then some '\u0085'
  else if c = '_' then some '\u00A0'
  else if c = 'L' then some '\u2028'
  else if c = 'P' then some '\u2029'
  else none

/-- One more escaped character in front, if there is one. -/
def Pieces.pushEscaped (c : Option Char) (ps : Option Pieces) : Option Pieces :=
  match c with
  | some c => ps.map (.push (.escaped c))
  | none => none

/-- The pieces up to the closing quote; a backslash starts an escape. -/
def doublePieces (m : Mark) : List Char → Option Pieces
  | [] => none
  | '"' :: rest => some ⟨[], m.skip 1, rest⟩
  | '\\' :: 'x' :: a :: b :: rest =>
    Pieces.pushEscaped (Text.hexChar? [a, b]) (doublePieces (m.skip 4) rest)
  | '\\' :: 'u' :: a :: b :: c :: d :: rest =>
    Pieces.pushEscaped (Text.hexChar? [a, b, c, d]) (doublePieces (m.skip 6) rest)
  | '\\' :: 'U' :: a :: b :: c :: d :: e :: f :: g :: h :: rest =>
    Pieces.pushEscaped (Text.hexChar? [a, b, c, d, e, f, g, h]) (doublePieces (m.skip 10) rest)
  | '\\' :: '\r' :: '\n' :: rest =>
    (doublePieces ((m.next '\r').next '\n') rest).map (.push .joint)
  | '\\' :: c :: rest =>
    if isBreak c then (doublePieces (m.next c) rest).map (.push .joint)
    else Pieces.pushEscaped (shortEscape? c) (doublePieces (m.skip 2) rest)
  | c :: rest => (doublePieces (m.next c) rest).map (.push (.text c))

/-- Blanks and line breaks between two words: blanks on one line, or what the first line break and
the further ones stand for. -/
inductive Gap where
  | blanks (cs : List Char)
  | breaks (first more : List Char)
  deriving DecidableEq, Repr

namespace Gap

/-- Two words without anything between them. -/
def none : Gap := blanks []

/-- The gap with a blank after it, which counts on its first line only. -/
def addBlank (c : Char) : Gap → Gap
  | blanks cs => blanks (cs ++ [c])
  | breaks first more => breaks first more

/-- The gap with a line break after it, which drops the blanks before the first one. -/
def addBreak (text : List Char) : Gap → Gap
  | blanks _ => breaks text []
  | breaks first more => breaks first (more ++ text)

/-- What stands in the scalar for the gap. -/
def folded : Gap → List Char
  | blanks cs => cs
  | breaks first more =>
    if first = ['\n'] then (if more = [] then [' '] else more) else first ++ more

/-- The gap has a line break. -/
def crossesLine : Gap → Bool
  | blanks _ => false
  | breaks _ _ => true

end Gap

/-- The pieces at the start of a line are a document marker. -/
def markerPieces (ps : List Piece) : Bool :=
  match ps with
  | .text a :: .text b :: .text c :: .text d :: _ => startsMarker [a, b, c, d]
  | _ => false

/-- The text of some pieces behind a gap; `lineStart` tells that they start a line. A document
marker may not start one. -/
def fold (lineStart : Bool) (gap : Gap) : List Piece → Option (List Char)
  | [] => some gap.folded
  | .escaped c :: rest => (fold false .none rest).map fun t => gap.folded ++ c :: t
  | .joint :: rest => (fold true (.breaks [] []) rest).map fun t => gap.folded ++ t
  | .text '\r' :: .text '\n' :: rest => fold true (gap.addBreak ['\n']) rest
  | .text c :: rest =>
    if isBlank c then fold false (gap.addBlank c) rest
    else if isBreak c then fold true (gap.addBreak (breakText c)) rest
    else if lineStart && markerPieces (.text c :: rest) then .none
    else (fold false .none rest).map fun t => gap.folded ++ c :: t

/-- A scalar that was read, and where it ends. -/
structure Scanned where
  text : List Char
  place : Place

/-- The scalar of some pieces. -/
def Pieces.scalar (ps : Pieces) : Option Scanned :=
  (fold false .none ps.pieces).map fun text => ⟨text, ⟨ps.mark, false, ps.rest⟩⟩

/-- Reads a scalar behind its opening single quote. -/
def readSingle (m : Mark) (cs : List Char) : Option Scanned :=
  (singlePieces m cs).bind Pieces.scalar

/-- Reads a scalar behind its opening double quote. -/
def readDouble (m : Mark) (cs : List Char) : Option Scanned :=
  (doublePieces m cs).bind Pieces.scalar

end LicenseAudit.Yaml
