import LicenseAudit.Ordered
import LicenseAudit.Yaml.Mapping

/-!
# Aliases

An alias stands for the node whose anchor it names. Anchors are numbered by the count of names known
when they are read, so an anchor that repeats a name shares its number with the next new name; the
later of the two nodes then has the number.
-/

namespace LicenseAudit.Yaml

/-- What an anchor names. -/
inductive Target where
  | document
  | scalar (s : Scalar)
  deriving DecidableEq, Repr

/-- A node whose alias has been looked up. -/
inductive Linked where
  | alias (number : Nat)
  | scalar (s : Scalar)
  deriving DecidableEq, Repr

/-- The names known so far with their numbers, and what has each number. -/
structure Anchors where
  numbers : Ordered Nat
  targets : List (Nat × Target)

namespace Anchors

/-- No names. -/
def empty : Anchors := ⟨.empty, []⟩

/-- One more anchor, if there is one. -/
def add (a : Anchors) (anchor : Option (List Char)) (target : Target) : Anchors :=
  match anchor with
  | none => a
  | some name =>
    -- A name that is known does not add to the count, so its number is given out again.
    let number := a.numbers.size
    ⟨a.numbers.insert (String.ofList name) number, (number, target) :: a.targets⟩

/-- The number of an alias, or the scalar of any other node, which may add an anchor. -/
def link (a : Anchors) : Node → Option (Anchors × Linked)
  | .alias name => (a.numbers.find? (String.ofList name)).map fun n => (a, .alias n)
  | .scalar anchor s => some (a.add anchor (.scalar s), .scalar s)

/-- Looks up the aliases of all entries in order. -/
def linkAll (a : Anchors) : List (Node × Node) → Option (Anchors × List (Linked × Linked))
  | [] => some (a, [])
  | (k, v) :: rest => do
    let (a, k) ← a.link k
    let (a, v) ← a.link v
    let (a, ls) ← linkAll a rest
    return (a, (k, v) :: ls)

/-- The scalar that a node stands for. An alias of the whole document stands for none. -/
def scalar? (a : Anchors) : Linked → Option Scalar
  | .scalar s => some s
  | .alias number =>
    match a.targets.lookup number with
    | some (.scalar s) => some s
    | _ => none

end Anchors

/-- The entries of a document as scalars. -/
def Document.scalars? (d : Document) : Option (List (Scalar × Scalar)) := do
  let (a, entries) ← (Anchors.empty.add d.anchor .document).linkAll d.entries
  entries.mapM fun e => do return (← a.scalar? e.1, ← a.scalar? e.2)

end LicenseAudit.Yaml
