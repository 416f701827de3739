import LicenseAudit.Yaml.Quoted

/-!
# Block scalars

A literal block keeps its line breaks, a folded one joins lines that are not indented further. A
header may give the indentation and say what happens to the line breaks at the end.
-/

namespace LicenseAudit.Yaml

/-- What happens to the line breaks at the end of a block. -/
inductive Chomping where
  /-- All are dropped. -/
  | strip
  /-- The first one is kept. -/
  | clip
  /-- All are kept. -/
  | keep
  deriving DecidableEq, Repr

/-- The header of a block: an indentation of 0 is still to be found. -/
structure BlockHeader where
  chomping : Chomping
  indentation : Nat
  deriving DecidableEq, Repr

/-- The chomping that an indicator asks for. -/
def chomping? (c : Char) : Option Chomping :=
  if c = '-' then some .strip else if c = '+' then some .keep else none

/-- The indentation that an indicator gives. -/
def indentation? (c : Char) : Option Nat :=
  if '1' ≤ c ∧ c ≤ '9' then some (c.toNat - 48) else none

/-- Reads the indicators of a header, in either order. -/
def readHeader (cs : List Char) : BlockHeader × List Char :=
  match cs with
  | [] => (⟨.clip, 0⟩, [])
  | a :: rest =>
    match chomping? a, indentation? a, rest with
    | some ch, _, b :: more =>
      match indentation? b with
      | some n => (⟨ch, n⟩, more)
      | none => (⟨ch, 0⟩, rest)
    | some ch, _, [] => (⟨ch, 0⟩, [])
    | none, some n, b :: more =>
      match chomping? b with
      | some ch => (⟨ch, n⟩, more)
      | none => (⟨.clip, n⟩, rest)
    | none, some n, [] => (⟨.clip, n⟩, [])
    | none, none, _ => (⟨.clip, 0⟩, cs)

/-- What follows the header line: blanks and a comment may stand before its break. -/
def skipHeaderLine (m : Mark) (comment : Bool) : List Char → Option (Mark × List Char)
  | [] => some (m, [])
  | '\r' :: '\n' :: rest => some ((m.next '\r').next '\n', rest)
  | c :: rest =>
    if isBreak c then some (m.next c, rest)
    else if comment || isBlank c || c = '#' then
      skipHeaderLine (m.next c) (comment || c = '#') rest
    else none

/-- A line of a block: its text, what its break stands for, and the breaks of the blank lines after
it. -/
structure BlockLine where
  text : List Char
  lineBreak : List Char
  blanks : List Char
  deriving DecidableEq, Repr

/-- The lines of a block, with the breaks before the first one. -/
structure BlockLines where
  blanks : List Char
  lines : List BlockLine
  place : Place

namespace BlockLines

/-- One more break before the lines. -/
def addBlank (text : List Char) (b : BlockLines) : BlockLines :=
  { b with blanks := text ++ b.blanks }

/-- One more line before the lines; the breaks before them now stand behind that line. -/
def addLine (text lineBreak : List Char) (b : BlockLines) : BlockLines :=
  ⟨[], ⟨text, lineBreak, b.blanks⟩ :: b.lines, b.place⟩

end BlockLines

/-- Reads the lines of a block. `line` is the text of the current line, last character first, or
absent between lines. An indentation of 0 is the largest one of the blank lines and the first text,
and at least `floor`. -/
def blockFrom (floor indentation widest : Nat) (m : Mark) (line : Option (List Char)) :
    List Char → Option BlockLines
  | [] =>
    let none : BlockLines := ⟨[], [], ⟨m, true, []⟩⟩
    some (match line with | some text => none.addLine text.reverse [] | .none => none)
  | '\r' :: '\n' :: rest =>
    let after :=
      blockFrom floor indentation (max widest m.column) ((m.next '\r').next '\n') none rest
    match line with
    | some text => after.map (.addLine text.reverse ['\n'])
    | none => after.map (.addBlank ['\n'])
  | c :: rest =>
    match line with
    | some text =>
      if isBreak c then
        (blockFrom floor indentation widest (m.next c) none rest).map
          (.addLine text.reverse (breakText c))
      else blockFrom floor indentation widest (m.next c) (some (c :: text)) rest
    | none =>
      let indenting := indentation = 0 || m.column < indentation
      if c = ' ' && indenting then blockFrom floor indentation widest (m.next c) none rest
      else if c = '\t' && indenting then none
      else if isBreak c then
        (blockFrom floor indentation (max widest m.column) (m.next c) none rest).map
          (.addBlank (breakText c))
      else
        -- The first text settles the indentation for all lines that follow.
        let found :=
          if indentation = 0 then max (max widest m.column) (max floor 1) else indentation
        if m.column = found then blockFrom floor found widest (m.next c) (some [c]) rest
        else some ⟨[], [], ⟨m, true, c :: rest⟩⟩

/-- The line starts with a blank. -/
def isIndented (line : List Char) : Bool := line.head?.any isBlank

/-- What stands between two lines. A folded block joins lines that are not indented further by a
space, or by the breaks of the blank lines between them. -/
def between (folded : Bool) (upper : BlockLine) (lower : List Char) : List Char :=
  if folded && upper.lineBreak = ['\n'] && !isIndented upper.text && !isIndented lower then
    if upper.blanks = [] then [' '] else upper.blanks
  else upper.lineBreak ++ upper.blanks

/-- What stands behind the last line. -/
def chomped (chomping : Chomping) (last : BlockLine) : List Char :=
  match chomping with
  | .strip => []
  | .clip => last.lineBreak
  | .keep => last.lineBreak ++ last.blanks

/-- The text of some lines. -/
def joinLines (folded : Bool) (chomping : Chomping) : List BlockLine → List Char
  | [] => []
  | [last] => last.text ++ chomped chomping last
  | upper :: lower :: rest =>
    upper.text ++ between folded upper lower.text ++ joinLines folded chomping (lower :: rest)

/-- The text of a block. Without lines only its blank lines can be kept. -/
def BlockLines.text (folded : Bool) (chomping : Chomping) (b : BlockLines) : List Char :=
  if b.lines = [] then (if chomping = .keep then b.blanks else [])
  else b.blanks ++ joinLines folded chomping b.lines

/-- Reads a block scalar behind its indicator. Its lines are indented by at least `floor` columns.
-/
def readBlock (folded : Bool) (floor : Nat) (m : Mark) (cs : List Char) : Option Scanned := do
  let (header, line) := readHeader cs
  let (m, lines) ← skipHeaderLine (m.skip (cs.length - line.length)) false line
  let indentation := if header.indentation = 0 then 0 else floor - 1 + header.indentation
  let block ← blockFrom floor indentation 0 m none lines
  return ⟨block.text folded header.chomping, block.place⟩

end LicenseAudit.Yaml
