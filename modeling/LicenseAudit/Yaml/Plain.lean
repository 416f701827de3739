import LicenseAudit.Yaml.Quoted

/-!
# Plain scalars

A scalar without quotes ends at a colon before a gap, at a comment, at a document marker, and
outside flow collections at a line that is indented too little. Line breaks inside it are folded.
-/

namespace LicenseAudit.Yaml

/-- A bracket or comma, which ends a plain scalar in a flow collection. -/
def isFlowMark (c : Char) : Bool := c = ',' || c = '[' || c = ']' || c = '{' || c = '}'

/-- An indicator that no plain scalar starts with. -/
def isIndicator (c : Char) : Bool :=
  isFlowMark c || c = '#' || c = '&' || c = '*' || c = '!' || c = '|' || c = '>' || c = '\'' ||
    c = '"' || c = '%' || c = '@' || c = '\x60'

/-- A plain scalar starts here. A dash, and outside flow collections a question mark or colon,
starts one only before a character that is no gap. -/
def startsPlain (flow : Bool) (cs : List Char) : Bool :=
  match cs with
  | [] => false
  | c :: rest =>
    if c = '-' then !atGap rest
    else if c = '?' || c = ':' then !flow && !atGap rest
    else !(atGap cs || isIndicator c)

/-- A colon in a flow collection that is followed by a bracket, a comma or a question mark. -/
def misplacedColon (flow : Bool) (c : Char) (rest : List Char) : Bool :=
  flow && c = ':' && (rest.head?.any fun d => isFlowMark d || d = '?')

/-- A plain scalar ends before this character. -/
def endsPlain (flow : Bool) (c : Char) (rest : List Char) : Bool :=
  (c = ':' && atGap rest) || (flow && isFlowMark c)

/-- A plain scalar ends before this word. -/
def endsBeforeWord (flow : Bool) (floor : Nat) (m : Mark) (gap : Gap) (cs : List Char) : Bool :=
  (!flow && gap ≠ .none && m.column < floor) || (m.column = 0 && startsMarker cs) ||
    cs.head? = some '#'

/-- Reads a plain scalar on. `words` is its text so far, last character first, and `gap` stands
behind it; lines must be indented by at least `floor` columns. The place behind it is fresh if a
line break stands before it. -/
def plainFrom (flow : Bool) (floor : Nat) (m : Mark) (words : List Char) (gap : Gap) :
    List Char → Option Scanned
  | [] => some ⟨words.reverse, ⟨m, gap.crossesLine, []⟩⟩
  | '\r' :: '\n' :: rest =>
    plainFrom flow floor ((m.next '\r').next '\n') words (gap.addBreak ['\n']) rest
  | c :: rest =>
    if isBlank c then
      if gap.crossesLine && m.column < floor && c = '\t' then none
      else plainFrom flow floor (m.next c) words (gap.addBlank c) rest
    else if isBreak c then plainFrom flow floor (m.next c) words (gap.addBreak (breakText c)) rest
    else if (words = [] || gap ≠ .none) && endsBeforeWord flow floor m gap (c :: rest) then
      some ⟨words.reverse, ⟨m, gap.crossesLine, c :: rest⟩⟩
    else if misplacedColon flow c rest then none
    else if endsPlain flow c rest then some ⟨words.reverse, ⟨m, gap.crossesLine, c :: rest⟩⟩
    else plainFrom flow floor (m.next c) (c :: (gap.folded.reverse ++ words)) .none rest

/-- Reads a plain scalar. -/
def readPlain (flow : Bool) (floor : Nat) (m : Mark) (cs : List Char) : Option Scanned :=
  plainFrom flow floor m [] .none cs

end LicenseAudit.Yaml
