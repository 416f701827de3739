import LicenseAudit.Text.Digits
import LicenseAudit.Yaml.Chars

/-!
# Anchors, tags and directives

An anchor names a node, a tag gives its type. A tag is written in full or as a handle and a suffix,
and the handle stands for what a directive at the start of the document says.
-/

namespace LicenseAudit.Yaml

/-- A token without line breaks that was read, and where it ends. -/
structure Word (α : Type) where
  value : α
  mark : Mark
  rest : List Char

/-- A character that may follow an anchor or an alias directly. -/
def endsAnchor (cs : List Char) : Bool :=
  atGap cs || cs.head?.any fun c =>
    c = '?' || c = ':' || c = ',' || c = ']' || c = '}' || c = '%' || c = '@' || c = '\x60'

/-- Reads the name of an anchor or an alias behind its indicator. -/
def readAnchor (m : Mark) (cs : List Char) : Option (Word (List Char)) :=
  let name := cs.takeWhile isNameChar
  let rest := cs.dropWhile isNameChar
  if name ≠ [] && endsAnchor rest then some ⟨name, m.skip name.length, rest⟩ else none

/-- A character of a tag; inside a tag in full a comma and square brackets may stand too. -/
def isTagChar (full : Bool) (c : Char) : Bool :=
  isNameChar c || (full && (c = ',' || c = '[' || c = ']')) ||
    [';', '/', '?', ':', '@', '&', '=', '+', '$', '.', '!', '~', '*', '\'', '(', ')'].contains c

/-- The number of octets that follow the first one of a character in UTF-8. -/
def octetsAfter? (octet : Nat) : Option Nat :=
  if octet < 0x80 then some 0
  else if 0xC0 ≤ octet ∧ octet < 0xE0 then some 1
  else if 0xE0 ≤ octet ∧ octet < 0xF0 then some 2
  else if 0xF0 ≤ octet ∧ octet < 0xF8 then some 3
  else none

/-- Reads the characters of a tag. An escaped octet stands for an ASCII character; a character of
several octets, of which `awaited` are still to come, is kept as a replacement character. -/
def readTagChars (full : Bool) (awaited : Nat) : List Char → Option (List Char × List Char)
  | [] => if awaited = 0 then some ([], []) else none
  | '%' :: a :: b :: rest =>
    match Text.hexNumber? [a, b], awaited with
    | none, _ => none
    | some octet, n + 1 =>
      if 0x80 ≤ octet ∧ octet < 0xC0 then readTagChars full n rest else none
    | some octet, 0 =>
      match octetsAfter? octet with
      | none => none
      | some n =>
        let c := if n = 0 then Char.ofNat octet else '\uFFFD'
        (readTagChars full n rest).map fun t => (c :: t.1, t.2)
  | c :: rest =>
    if c = '%' then none
    else if awaited ≠ 0 then none
    else if isTagChar full c then (readTagChars full 0 rest).map fun t => (c :: t.1, t.2)
    else some ([], c :: rest)

/-- A tag as it is written: in full, or with a handle. -/
structure TagName where
  handle : List Char
  suffix : List Char
  deriving DecidableEq, Repr

/-- Reads a tag in full behind its opening bracket. -/
def readFullTag (cs : List Char) : Option (TagName × List Char) :=
  match readTagChars true 0 cs with
  | some (c :: text, '>' :: rest) => some (⟨[], c :: text⟩, rest)
  | _ => none

/-- Reads a tag with a handle, behind its exclamation mark. Without a second mark the handle is that
one mark alone, and all else is the suffix; the mark alone is a tag too. -/
def readShortTag (cs : List Char) : Option (TagName × List Char) :=
  let name := cs.takeWhile isNameChar
  match cs.dropWhile isNameChar with
  | '!' :: rest =>
    match readTagChars false 0 rest with
    | some (c :: text, after) => some (⟨'!' :: name ++ ['!'], c :: text⟩, after)
    | _ => none
  | rest =>
    (readTagChars false 0 rest).map fun t =>
      (if name ++ t.1 = [] then ⟨[], ['!']⟩ else ⟨['!'], name ++ t.1⟩, t.2)

/-- Reads a tag behind its indicator. -/
def readTag (flow : Bool) (m : Mark) (cs : List Char) : Option (Word TagName) :=
  let tag :=
    match cs with
    | '<' :: rest => readFullTag rest
    | _ => readShortTag cs
  match tag with
  | none => none
  | some (name, rest) =>
    if atGap rest || (flow && rest.head? = some ',') then
      some ⟨name, m.skip (cs.length - rest.length), rest⟩
    else none

/-- What handles stand for. -/
abbrev TagPrefixes := List (List Char × List Char)

/-- What handles stand for without a directive. -/
def standardPrefixes : TagPrefixes :=
  [(['!'], ['!']), (['!', '!'], "tag:yaml.org,2002:".toList)]

/-- The tag that a name stands for. -/
def TagName.resolve (tags : TagPrefixes) (t : TagName) : Option (List Char) :=
  if t.handle = [] then some t.suffix else (tags.lookup t.handle).map (· ++ t.suffix)

/-- What the directives of a document say. -/
structure Directives where
  hasVersion : Bool
  tags : TagPrefixes

/-- Reads a number of at most nine digits. -/
def readVersionNumber (cs : List Char) : Option (Nat × List Char) :=
  let digits := cs.takeWhile Char.isDigit
  if digits ≠ [] && digits.length ≤ 9 then
    some (digits.foldl (fun n c => 10 * n + (c.toNat - 48)) 0, cs.dropWhile Char.isDigit)
  else none

/-- Reads a version that is supported: 1.1 or 1.2. -/
def readVersion (cs : List Char) : Option (List Char) := do
  let (major, rest) ← readVersionNumber (cs.dropWhile isBlank)
  match rest with
  | '.' :: rest =>
    let (minor, rest) ← readVersionNumber rest
    if major = 1 && (minor = 1 || minor = 2) then some rest else none
  | _ => none

/-- Reads what a handle stands for. -/
def readTagPrefix (cs : List Char) : Option ((List Char × List Char) × List Char) :=
  match cs.dropWhile isBlank with
  | '!' :: rest =>
    let name := rest.takeWhile isNameChar
    let after := rest.dropWhile isNameChar
    let handle :=
      match after with
      | '!' :: after => some ('!' :: name ++ ['!'], after)
      | _ => if name = [] then some (['!'], after) else none
    match handle with
    | none => none
    | some (handle, after) =>
      if after.head?.any isBlank then
        match readTagChars true 0 (after.dropWhile isBlank) with
        | some (c :: text, rest) => if atGap rest then some ((handle, c :: text), rest) else none
        | _ => none
      else none
  | _ => none

/-- Reads a directive behind its indicator, up to the end of its line. A directive may not be
repeated. -/
def readDirective (ds : Directives) (cs : List Char) : Option (Directives × List Char) :=
  let name := cs.takeWhile isNameChar
  let rest := cs.dropWhile isNameChar
  if !atGap rest then none
  else if name = ['Y', 'A', 'M', 'L'] then
    if ds.hasVersion then none
    else (readVersion rest).map fun rest => ({ ds with hasVersion := true }, rest)
  else if name = ['T', 'A', 'G'] then
    (readTagPrefix rest).bind fun (tag, rest) =>
      if (ds.tags.lookup tag.1).isSome then none
      else some ({ ds with tags := tag :: ds.tags }, rest)
  else none

/-- A directive ends here: only blanks and a comment may stand before the end of its line. -/
def endsDirective (cs : List Char) : Bool :=
  match cs.dropWhile isBlank with
  | [] => true
  | c :: _ => isBreak c || c = '#'

end LicenseAudit.Yaml
