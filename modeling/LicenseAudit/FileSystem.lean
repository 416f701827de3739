/-!
# Files

A file system holds files at locations, which are lists of names from the root. A directory exists
if something stands in it or if the work is done there. Paths are walked name by name, so that each
of the ways in which a file can be out of reach has its own error.

Main statements: a file that was written is read back (`get?_set_self`), and all other files stay as
they are (`get?_set_of_ne`).
-/

namespace LicenseAudit

/-- What a file holds: a text, or bytes that are none. -/
inductive Content where
  | text (s : String)
  | bytes (bs : List UInt8)
  deriving DecidableEq

/-- The content of a file with these bytes. -/
def Content.ofBytes (bs : List UInt8) : Content :=
  match String.fromUTF8? (ByteArray.mk bs.toArray) with
  | some s => text s
  | none => bytes bs

/-- Why a file cannot be read or written. -/
inductive FileFault where
  | notFound
  | notDirectory
  | isDirectory
  | nameTooLong
  | invalidName
  | notText
  deriving DecidableEq, Repr

/-- What the error says. -/
def FileFault.message : FileFault → String
  | notFound => "No such file or directory (os error 2)"
  | notDirectory => "Not a directory (os error 20)"
  | isDirectory => "Is a directory (os error 21)"
  | nameTooLong => "File name too long (os error 36)"
  | invalidName => "file name contained an unexpected NUL byte"
  | notText => "stream did not contain valid UTF-8"

/-- The text of a content. -/
def Content.read : Content → Except FileFault String
  | text s => .ok s
  | bytes _ => .error .notText

/-- The names from the root to a file or directory. -/
abbrev Location := List String

/-- Files, known directories and the directory where the work is done. -/
structure FileSystem where
  files : List (Location × Content)
  directories : List Location
  current : Location
  deriving DecidableEq

namespace FileSystem

/-- The content in the first entry for a location. -/
def getIn (loc : Location) : List (Location × Content) → Option Content
  | [] => none
  | (l, c) :: rest => if l = loc then some c else getIn loc rest

/-- The entries with a new content at a location. -/
def setIn (loc : Location) (content : Content) :
    List (Location × Content) → List (Location × Content)
  | [] => [(loc, content)]
  | (l, c) :: rest => if l = loc then (l, content) :: rest else (l, c) :: setIn loc content rest

/-- The content of the file at a location. -/
def get? (fs : FileSystem) (loc : Location) : Option Content := getIn loc fs.files

/-- The file system with a file at a location. -/
def set (fs : FileSystem) (loc : Location) (content : Content) : FileSystem :=
  { fs with files := setIn loc content fs.files }

theorem getIn_setIn_self (loc : Location) (content : Content) (es : List (Location × Content)) :
    getIn loc (setIn loc content es) = some content := by
  induction es with
  | nil => simp [setIn, getIn]
  | cons e es ih =>
    obtain ⟨l, c⟩ := e
    by_cases h : l = loc <;> simp [setIn, getIn, h, ih]

theorem getIn_setIn_of_ne {loc other : Location} (h : other ≠ loc) (content : Content)
    (es : List (Location × Content)) : getIn other (setIn loc content es) = getIn other es := by
  induction es with
  | nil => simp [setIn, getIn, Ne.symm h]
  | cons e es ih =>
    obtain ⟨l, c⟩ := e
    by_cases hl : l = loc
    · subst hl
      simp [setIn, getIn, Ne.symm h]
    · simp [setIn, getIn, hl, ih]

theorem get?_set_self (fs : FileSystem) (loc : Location) (content : Content) :
    (fs.set loc content).get? loc = some content :=
  getIn_setIn_self loc content fs.files

theorem get?_set_of_ne (fs : FileSystem) {loc other : Location} (h : other ≠ loc)
    (content : Content) : (fs.set loc content).get? other = fs.get? other :=
  getIn_setIn_of_ne h content fs.files

/-- A directory is at this location. -/
def hasDirectory (fs : FileSystem) (loc : Location) : Bool :=
  loc.isPrefixOf fs.current || fs.directories.any loc.isPrefixOf ||
    fs.files.any fun f => loc ≠ f.1 && loc.isPrefixOf f.1

/-- The parts of a path between its slashes. -/
def splitPath (part : List Char) : List Char → List String
  | [] => [String.ofList part.reverse]
  | c :: cs =>
    if c = '/' then String.ofList part.reverse :: splitPath [] cs else splitPath (c :: part) cs

/-- The parts of a path; an absolute one starts with an empty part. -/
def parts (path : String) : List String := splitPath [] path.toList

/-- A part that stays where it is. -/
def isStay (part : String) : Bool := part = "" || part = "."

/-- The location of some parts of a path. Each part needs a directory to start from. -/
def walk (fs : FileSystem) (loc : Location) : List String → Except FileFault Location
  | [] => .ok loc
  | part :: rest =>
    -- Even a part that stays needs a directory, as in a path with a slash at its end.
    if (fs.get? loc).isSome then .error .notDirectory
    else if !fs.hasDirectory loc then .error .notFound
    else if isStay part then walk fs loc rest
    else if part = ".." then walk fs loc.dropLast rest
    else if 255 < part.utf8ByteSize then .error .nameTooLong
    else walk fs (loc ++ [part]) rest

/-- Where the walk of a path starts. -/
def origin (fs : FileSystem) (path : String) : Location :=
  if path.toList.head? = some '/' then [] else fs.current

/-- Why a path is none, whatever files there are. -/
def pathFault? (path : String) : Option FileFault :=
  if path = "" then some .notFound
  else if path.toList.contains '\x00' then some .invalidName
  else if 4095 < path.utf8ByteSize then some .nameTooLong
  else none

/-- The location that a path leads to. -/
def resolve (fs : FileSystem) (path : String) : Except FileFault Location :=
  match pathFault? path with
  | some fault => .error fault
  | none => fs.walk (fs.origin path) (parts path)

/-- Something is where a path leads to. -/
def isPresent (fs : FileSystem) (path : String) : Bool :=
  match fs.resolve path with
  | .ok loc => (fs.get? loc).isSome || fs.hasDirectory loc
  | .error _ => false

/-- What is in the file that a path leads to. -/
def content? (fs : FileSystem) (path : String) : Option Content :=
  match fs.resolve path with
  | .ok loc => fs.get? loc
  | .error _ => none

/-- Reads the text of a file. -/
def read (fs : FileSystem) (path : String) : Except FileFault String :=
  match fs.resolve path with
  | .error fault => .error fault
  | .ok loc =>
    match fs.get? loc with
    | some content => content.read
    | none => .error (if fs.hasDirectory loc then .isDirectory else .notFound)

/-- The parts of a path without a slash at its end, and whether it had one. -/
def targetParts (path : String) : List String × Bool :=
  let ps := (parts path).reverse
  ((ps.dropWhile (· = "")).reverse, ps.head? = some "")

/-- The location of a file to be written. Its directory has to be there, and a path that ends in a
slash is no file. -/
def target (fs : FileSystem) (path : String) : Except FileFault Location :=
  match pathFault? path with
  | some fault => .error fault
  | none =>
    match targetParts path with
    | (ps, true) =>
      -- The point asks for a directory where the last part would be looked up.
      match fs.walk (fs.origin path) (ps.dropLast ++ ["."]) with
      | .error fault => .error fault
      | .ok _ => .error .isDirectory
    | (ps, false) => fs.walk (fs.origin path) ps

/-- Writes a text to a file. -/
def write (fs : FileSystem) (path : String) (text : String) : Except FileFault FileSystem :=
  match fs.target path with
  | .error fault => .error fault
  | .ok loc =>
    if (fs.get? loc).isNone && fs.hasDirectory loc then .error .isDirectory
    else .ok (fs.set loc (.text text))

/-- The location of some parts of a path, whatever is there. -/
def locate (loc : Location) : List String → Location
  | [] => loc
  | part :: rest =>
    if isStay part then locate loc rest
    else if part = ".." then locate loc.dropLast rest
    else locate (loc ++ [part]) rest

/-- The location that a path names, whatever is there. -/
def location (fs : FileSystem) (path : String) : Location :=
  locate (fs.origin path) (parts path)

/-- Puts a file where a path leads to, along with its directories. -/
def place (fs : FileSystem) (path : String) (content : Content) : FileSystem :=
  fs.set (fs.location path) content

/-- The files that are new or different from before. -/
def changes (before after : FileSystem) : List (Location × Content) :=
  after.files.filter fun f => before.get? f.1 ≠ some f.2

/-- The path to a location below the current directory. -/
def pathTo (fs : FileSystem) (loc : Location) : String :=
  String.intercalate "/" (loc.drop fs.current.length)

end FileSystem

end LicenseAudit
