/-!
# Tables in TOML

A table may be opened by its header, come to be as the parent of another one, or be made by a dotted
key. A header may open each table once, and only if no dotted key made it; dotted keys lead only
through tables that no header opened.
-/

namespace LicenseAudit.Toml

/-- How a table came to be. -/
inductive Origin where
  | header
  | parent
  | dotted
  deriving DecidableEq, Repr

/-- What a key stands for. Of numbers, Booleans and dates nothing but their kind is kept, and of an
array its length. -/
inductive Entry where
  | string (text : String)
  | scalar
  | array (size : Nat)
  | inline (dotted : Bool) (entries : List (String × Entry))
  | table (origin : Origin) (entries : List (String × Entry))
  | tables (members : List (List (String × Entry)))

/-- Entries in the order in which they were added. -/
abbrev Entries := List (String × Entry)

/-- The entries with another one in place of the first one for a key. -/
def replace (key : String) (e : Entry) : Entries → Entries
  | [] => [(key, e)]
  | (k, v) :: rest => if k = key then (k, e) :: rest else (k, v) :: replace key e rest

/-- Applies a change to the last member of an array of tables. -/
def changeLast (f : Entries → Option Entries) : List Entries → Option (List Entries)
  | [] => none
  | [last] => (f last).map ([·])
  | m :: rest => (changeLast f rest).map (m :: ·)

/-- A change of a table, which may depend on how the table came to be. -/
abbrev Change := Origin → Entries → Option Entries

/-- Applies a change to the table at a path. Tables that are missing on the way are made; with
`dotted` the path stands in front of a key, and no table on the way may have a header. -/
def descend (dotted : Bool) (change : Change) : List String → Origin → Entries → Option Entries
  | [], origin, es => change origin es
  | key :: path, _, es =>
    match es.lookup key with
    | none =>
      let origin := if dotted then .dotted else .parent
      (descend dotted change path origin []).map fun sub => es ++ [(key, .table origin sub)]
    | some (.table origin sub) =>
      if dotted && origin = .header then none
      else (descend dotted change path origin sub).map fun sub => replace key (.table origin sub) es
    | some (.tables members) =>
      (changeLast (descend dotted change path .header) members).map fun ms =>
        replace key (.tables ms) es
    | some _ => none

/-- Adds a key to a table. A dotted key must have led to a table that dotted keys made. -/
def addKey (isDotted : Bool) (key : String) (e : Entry) : Change := fun origin es =>
  if isDotted && origin ≠ .dotted then none
  else if (es.lookup key).isSome then none
  else some (es ++ [(key, e)])

/-- Adds a key below a path of dotted keys to the table at another path. -/
def addAt (table path : List String) (key : String) (e : Entry) (root : Entries) :
    Option Entries :=
  descend false (fun _ es => descend true (addKey (path ≠ []) key e) path .header es) table .header
    root

/-- Opens a table by its header. -/
def openKey (key : String) : Change := fun _ es =>
  match es.lookup key with
  | none => some (es ++ [(key, .table .header [])])
  | some (.table .parent sub) => some (replace key (.table .header sub) es)
  | some _ => none

/-- Opens one more table of an array of tables by its header. -/
def openMember (key : String) : Change := fun _ es =>
  match es.lookup key with
  | none => some (es ++ [(key, .tables [[]])])
  | some (.tables members) => some (replace key (.tables (members ++ [[]])) es)
  | some _ => none

/-- Opens the table at a path, or one more table of the array of tables there. -/
def openTable (member : Bool) (path : List String) (root : Entries) : Option Entries :=
  match path.reverse with
  | [] => none
  | key :: parents =>
    descend false (if member then openMember key else openKey key) parents.reverse .header root

/-- Adds a key below a path of dotted keys to a table in braces. The path leads only through tables
that dotted keys made. -/
def addInline (key : String) (e : Entry) : List String → Entries → Option Entries
  | [], es => if (es.lookup key).isSome then none else some (es ++ [(key, e)])
  | k :: path, es =>
    match es.lookup k with
    | none => (addInline key e path []).map fun sub => es ++ [(k, .inline true sub)]
    | some (.inline true sub) =>
      (addInline key e path sub).map fun sub => replace k (.inline true sub) es
    | some _ => none

end LicenseAudit.Toml
