import LicenseAudit.Ordered
import LicenseAudit.Text.Blank
import LicenseAudit.Text.Lines

/-!
# Listings of dependencies

A listing has a line `dependency,license` for each dependency. White space around a line and around
both parts does not count, blank lines say nothing, and only the first comma of a line divides it.
A dependency that is listed again keeps its place and gets the later license.

Main statement: a blank line is only counted (`readFrom_blank`).
-/

namespace LicenseAudit

/-- A listing maps dependencies to license expressions. -/
abbrev Listing := Ordered String

namespace Listing

/-- Why a line is no entry; lines are counted from 1. -/
inductive Fault where
  | noComma (line : Nat) (text : String)
  | noDependency (line : Nat)
  deriving DecidableEq, Repr

/-- What the error says. -/
def Fault.message : Fault → String
  | noComma line text =>
    "Line " ++ Nat.repr line ++ ": expected 'dependency,license', got '" ++ text ++ "'"
  | noDependency line => "Line " ++ Nat.repr line ++ ": missing dependency name"

/-- The entry of a trimmed line that is not blank. -/
def readEntry (line : Nat) (text : List Char) : Except Fault (String × String) :=
  match text.dropWhile (· ≠ ',') with
  | [] => .error (.noComma line (String.ofList text))
  | _ :: license =>
    match Text.trim (text.takeWhile (· ≠ ',')) with
    | [] => .error (.noDependency line)
    | dependency => .ok (String.ofList dependency, String.ofList (Text.trim license))

/-- Adds the entries of lines to a listing; `line` is the number of the first one. -/
def readFrom (line : Nat) (listing : Listing) : List (List Char) → Except Fault Listing
  | [] => .ok listing
  | text :: rest =>
    match Text.trim text with
    | [] => readFrom (line + 1) listing rest
    | entry =>
      match readEntry line entry with
      | .error fault => .error fault
      | .ok (dependency, license) =>
        readFrom (line + 1) (listing.insert dependency license) rest

/-- Reads a listing. -/
def parse (content : String) : Except Fault Listing :=
  readFrom 1 Ordered.empty (Text.lines content.toList)

theorem readFrom_blank {text : List Char} (h : Text.trim text = []) (line : Nat)
    (listing : Listing) (rest : List (List Char)) :
    readFrom line listing (text :: rest) = readFrom (line + 1) listing rest := by
  rw [readFrom, h]

end Listing

end LicenseAudit
