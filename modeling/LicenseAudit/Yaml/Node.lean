import LicenseAudit.Yaml.Block
import LicenseAudit.Yaml.Plain
import LicenseAudit.Yaml.Tag

/-!
# Nodes

A node is a scalar or an alias, with an anchor and a tag in front of it in either order. Collections
are no nodes here: where only scalars have a meaning, none is read.
-/

namespace LicenseAudit.Yaml

/-- How a scalar is written. -/
inductive Style where
  | plain
  | singleQuoted
  | doubleQuoted
  | literal
  | folded
  deriving DecidableEq, Repr

/-- A scalar with its tag. -/
structure Scalar where
  style : Style
  text : List Char
  tag : Option (List Char)
  deriving DecidableEq, Repr

/-- What stands in front of a node. -/
structure Properties where
  anchor : Option (List Char)
  tag : Option (List Char)
  deriving DecidableEq, Repr

/-- A node: the name of an alias, or a scalar that may have an anchor. -/
inductive Node where
  | alias (name : List Char)
  | scalar (anchor : Option (List Char)) (s : Scalar)
  deriving DecidableEq, Repr

/-- Nothing in front of a node. -/
def Properties.none : Properties := ⟨.none, .none⟩

/-- A node may stand here: its lines are indented by at least `floor` columns, and no document
marker stands here. -/
def Place.within (flow : Bool) (floor : Nat) (p : Place) : Bool :=
  (flow || floor ≤ p.column) && !p.atEnd

/-- A property stands here. -/
def Place.atProperty (p : Place) : Bool := p.rest.head?.any fun c => c = '&' || c = '!'

/-- Reads one property; each may stand there once. -/
def readProperty (tags : TagPrefixes) (flow : Bool) (props : Properties) (p : Place) :
    Option (Properties × Place) :=
  match p.rest with
  | '&' :: rest => do
    let w ← readAnchor (p.mark.skip 1) rest
    if props.anchor.isSome then .none
    else return ({ props with anchor := some w.value }, Place.advance ⟨w.mark, false, w.rest⟩ flow)
  | '!' :: rest => do
    let w ← readTag flow (p.mark.skip 1) rest
    let tag ← w.value.resolve tags
    if props.tag.isSome then .none
    else return ({ props with tag := some tag }, Place.advance ⟨w.mark, false, w.rest⟩ flow)
  | _ => .none

/-- Reads the properties of a node: at most two. -/
def readProperties (tags : TagPrefixes) (flow : Bool) (floor : Nat) (p : Place) :
    Option (Properties × Place) :=
  if p.atProperty then do
    let (props, q) ← readProperty tags flow .none p
    if q.atProperty && q.within flow floor then readProperty tags flow props q
    else return (props, q)
  else some (.none, p)

/-- Reads a scalar, if one starts here: the inner answer is absent if none does. -/
def readScalar (flow : Bool) (floor : Nat) (p : Place) : Option (Option (Style × Scanned)) :=
  match p.rest with
  | [] => some .none
  | c :: rest =>
    let m := p.mark.skip 1
    if c = '\'' then (readSingle m rest).map fun s => some (.singleQuoted, s)
    else if c = '"' then (readDouble m rest).map fun s => some (.doubleQuoted, s)
    else if c = '|' && !flow then (readBlock false floor m rest).map fun s => some (.literal, s)
    else if c = '>' && !flow then (readBlock true floor m rest).map fun s => some (.folded, s)
    else if startsPlain flow p.rest then
      (readPlain flow floor p.mark p.rest).map fun s => some (.plain, s)
    else some .none

/-- Reads a node without properties: an alias or a scalar. -/
def readBareNode (flow : Bool) (floor : Nat) (p : Place) : Option (Node × Place) :=
  match p.rest with
  | '*' :: rest =>
    (readAnchor (p.mark.skip 1) rest).map fun w => (.alias w.value, ⟨w.mark, false, w.rest⟩)
  | _ => do
    let (style, s) ← ← readScalar flow floor p
    return (.scalar .none ⟨style, s.text, .none⟩, s.place)

/-- Reads the scalar behind some properties; if there is none, it is empty. -/
def readTaggedScalar (flow : Bool) (floor : Nat) (props : Properties) (p : Place) :
    Option (Node × Place) := do
  match ← if p.within flow floor then readScalar flow floor p else some .none with
  | some (style, s) => return (.scalar props.anchor ⟨style, s.text, props.tag⟩, s.place)
  | .none => return (.scalar props.anchor ⟨.plain, [], props.tag⟩, p)

/-- Reads a node. With properties its scalar may be missing. -/
def readNode (tags : TagPrefixes) (flow : Bool) (floor : Nat) (p : Place) :
    Option (Node × Place) := do
  let (props, q) ← readProperties tags flow floor p
  if props = .none then readBareNode flow floor q else readTaggedScalar flow floor props q

end LicenseAudit.Yaml
