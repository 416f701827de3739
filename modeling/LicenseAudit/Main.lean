import LicenseAudit.Run

/-!
# The command line

Takes up the files that a run may touch, runs it on them, and brings back what it says and changes.
-/

namespace LicenseAudit.Main

/-- The path of a location on the disk. -/
def diskPath (loc : Location) : String := "/" ++ String.intercalate "/" loc

/-- Takes up what is at a location on the disk: a file, a directory or nothing. -/
def survey (fs : FileSystem) (loc : Location) : IO FileSystem := do
  let path := (← IO.currentDir) / diskPath loc
  if ← path.isDir then return { fs with directories := loc :: fs.directories }
  match ← (IO.FS.readBinFile path).toBaseIO with
  | .ok bytes => return fs.set loc (Content.ofBytes bytes.toList)
  | .error _ => return fs

/-- Takes up a path along with the directories that lead to it. -/
def surveyPath (fs : FileSystem) (path : String) : IO FileSystem :=
  let loc := fs.location path
  ((List.range (loc.length + 1)).map loc.take).foldlM survey fs

/-- Reads standard input to its end. -/
partial def readInput (input : IO.FS.Stream) (bytes : ByteArray) : IO ByteArray := do
  let more ← input.read 65536
  if more.isEmpty then return bytes
  readInput input (bytes ++ more)

/-- Takes up standard input if a path stands for it. -/
def surveyInput (paths : List String) : IO Content := do
  if paths.any Workspace.isInput then
    return Content.ofBytes (← readInput (← IO.getStdin) ByteArray.empty).toList
  else return .text ""

/-- Writes a file to the disk. -/
def restore (loc : Location) (content : Content) : IO Unit := do
  match content with
  | .text s => IO.FS.writeFile (diskPath loc) s
  | .bytes bs => IO.FS.writeBinFile (diskPath loc) (ByteArray.mk bs.toArray)

/-- Runs a command line on the disk and returns its exit code. -/
def run (words : List String) : IO UInt32 := do
  let directory := (← IO.currentDir).toString
  let start : FileSystem := ⟨[], [], (FileSystem.parts directory).filter (· ≠ "")⟩
  let onTerminal ← (← IO.getStdout).isTty
  let w : Workspace := ⟨start, .text "", directory, onTerminal⟩
  let known ← (Run.paths w words).foldlM surveyPath start
  let paths := Run.paths { w with files := known } words
  let files ← paths.foldlM surveyPath known
  let w := { w with files, input := ← surveyInput paths }
  let (outcome, level) := Run.commandLine w words
  for (loc, content) in FileSystem.changes files outcome.files do
    restore loc content
  IO.eprint (LogEntry.lines level outcome.log)
  IO.print outcome.out
  IO.eprint outcome.err
  return outcome.exit.toUInt32

end LicenseAudit.Main

/-- Runs a command line and ends with its exit code. -/
def main (words : List String) : IO UInt32 := LicenseAudit.Main.run words
