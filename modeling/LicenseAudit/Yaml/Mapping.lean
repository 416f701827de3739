import LicenseAudit.Yaml.Node

/-!
# Flat mappings

A document that is one mapping of nodes to nodes, as a block with an entry on each line or in
braces. A key stands on one line before its colon, unless a question mark announces it. Anything
nested is refused, and so is a second document.
-/

namespace LicenseAudit.Yaml

/-- A character that stands here as an indicator: it is followed by a gap. -/
def Place.atIndicator (p : Place) (c : Char) : Bool := p.rest.head? = some c && atGap p.rest.tail

/-- The place behind an indicator and what may be skipped after it. -/
def Place.behindIndicator (p : Place) (flow fresh : Bool) : Place :=
  Place.advance ⟨p.mark.skip 1, fresh, p.rest.tail⟩ flow

/-- A key is at most this many characters long, up to its colon. -/
def maxKeyLength : Nat := 1024

/-- The colon of a key stands here: on the line where the key starts, and not too far behind it. -/
def Place.endsKeyFrom (start p : Place) : Bool :=
  p.mark.line = start.mark.line && p.mark.index ≤ start.mark.index + maxKeyLength

/-- Reads a key and its colon outside braces. -/
def readKey (tags : TagPrefixes) (floor : Nat) (p : Place) : Option (Node × Place) := do
  let (key, q) ← readNode tags false floor p
  let q := q.advance false
  if p.fresh && q.atIndicator ':' && p.endsKeyFrom q then
    return (key, q.behindIndicator false false)
  else none

/-- The empty scalar. -/
def Node.empty : Node := .scalar none ⟨.plain, [], none⟩

/-- Reads an announced key and its colon, which starts a line at the column of the mapping. -/
def readAnnouncedKey (tags : TagPrefixes) (column : Nat) (p : Place) : Option (Node × Place) := do
  let q := p.behindIndicator false true
  let (key, q) ←
    if q.within false (column + 1) then readNode tags false (column + 1) q
    else some (.empty, q)
  let q := q.advance false
  if q.fresh && q.column = column && q.atIndicator ':' then
    return (key, q.behindIndicator false true)
  else none

/-- Reads the entries of a mapping that starts at a column, up to the end of the document. -/
def readEntries (tags : TagPrefixes) (column : Nat) :
    Nat → Place → Option (List (Node × Node) × Place)
  | 0, _ => none
  | fuel + 1, p =>
    if p.atEnd then some ([], p)
    else if p.column ≠ column then none
    else do
      let (key, q) ←
        if p.atIndicator '?' then
          if p.fresh then readAnnouncedKey tags column p else none
        else readKey tags (column + 1) p
      if q.within false (column + 1) then
        let (value, r) ← readNode tags false (column + 1) q
        let (entries, last) ← readEntries tags column fuel (r.advance false)
        return ((key, value) :: entries, last)
      else none

/-- Reads an announced key and its colon in braces. -/
def readAnnouncedFlowKey (tags : TagPrefixes) (p : Place) : Option (Node × Place) := do
  let q := p.behindIndicator true false
  let (key, q) ←
    if q.rest.head? = some ':' then some (.empty, q)
    else if q.within true 0 then readNode tags true 0 q
    else none
  let q := q.advance true
  if q.rest.head? = some ':' then return (key, q.behindIndicator true false) else none

/-- Reads a key and its colon in braces. -/
def readFlowKey (tags : TagPrefixes) (p : Place) : Option (Node × Place) := do
  let (key, q) ← if p.within true 0 then readNode tags true 0 p else none
  let q := q.advance true
  if q.rest.head? = some ':' && p.endsKeyFrom q then
    return (key, q.behindIndicator true false)
  else none

/-- Reads the entries of a mapping in braces, behind the opening one or a comma. -/
def readFlowEntries (tags : TagPrefixes) : Nat → Place → Option (List (Node × Node) × Place)
  | 0, _ => none
  | fuel + 1, p =>
    if p.rest.head? = some '}' then some ([], p.behindIndicator false false)
    else do
      let (key, q) ←
        if p.rest.head? = some '?' then readAnnouncedFlowKey tags p else readFlowKey tags p
      let (value, r) ← if q.within true 0 then readNode tags true 0 q else none
      let r := r.advance true
      if r.rest.head? = some ',' then
        let (entries, last) ← readFlowEntries tags fuel (r.behindIndicator true true)
        return ((key, value) :: entries, last)
      else if r.rest.head? = some '}' then
        return ([(key, value)], r.behindIndicator false false)
      else none

/-- A document: one mapping, which may have an anchor. -/
structure Document where
  anchor : Option (List Char)
  entries : List (Node × Node)
  deriving DecidableEq, Repr

/-- Reads the root of a document behind its properties. A document without content is an empty
mapping. -/
def readRoot (tags : TagPrefixes) (fuel : Nat) (props : Properties) :
    Nat → Place → Option (Document × Place)
  | 0, _ => none
  | more + 1, p =>
    if p.atEnd then some (⟨props.anchor, []⟩, p)
    else if p.rest.head? = some '{' then
      (readFlowEntries tags fuel (p.behindIndicator true true)).map fun r =>
        (⟨props.anchor, r.1⟩, r.2)
    -- Properties in front of a key on the same line belong to the key, not to the mapping.
    else if p.fresh && (p.atIndicator '?' || (readKey tags 0 p).isSome) then
      (readEntries tags p.column fuel p).map fun r => (⟨props.anchor, r.1⟩, r.2)
    else if p.atProperty then
      (readProperty tags false props p).bind fun r => readRoot tags fuel r.1 more r.2
    else none

/-- Only markers of the document's end follow. -/
def onlyEndMarkers : Nat → Place → Bool
  | 0, _ => false
  | fuel + 1, p =>
    p.rest.isEmpty ||
      (p.column = 0 && startsMarker p.rest && p.rest.head? = some '.' &&
        onlyEndMarkers fuel (Place.advance ⟨p.mark.skip 3, false, p.rest.drop 3⟩ false))

/-- Reads the directives at the start of a stream. -/
def readDirectives (ds : Directives) : Nat → Place → Option (Directives × Place)
  | 0, _ => none
  | fuel + 1, p =>
    match p.rest with
    | '%' :: rest =>
      if p.column = 0 then do
        let (ds, after) ← readDirective ds rest
        if endsDirective after then
          readDirectives ds fuel
            (Place.advance ⟨p.mark.skip (p.rest.length - after.length), false, after⟩ false)
        else none
      else some (ds, p)
    | _ => some (ds, p)

/-- Reads a stream of at most one document. After directives a document needs its marker, and a
stream does not start with the marker of an end. -/
def readStream (cs : List Char) : Option Document := do
  if !cs.all isAllowed then none
  let fuel := cs.length + 1
  let p := toToken false true false .start cs
  let (ds, q) ← readDirectives ⟨false, []⟩ fuel p
  let marked := q.column = 0 && startsMarker q.rest
  if marked && q.rest.head? = some '.' then none
  if !marked && (ds.hasVersion || ds.tags ≠ []) then none
  let start :=
    if marked then Place.advance ⟨q.mark.skip 3, false, q.rest.drop 3⟩ false else q
  let (document, last) ← readRoot (ds.tags ++ standardPrefixes) fuel .none 3 start
  if onlyEndMarkers fuel (last.advance false) then return document else none

end LicenseAudit.Yaml
