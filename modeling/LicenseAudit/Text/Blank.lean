/-!
# White space

The characters with the `White_Space` property, and texts without them at either end. The core
library has a shorter list of white space.
-/

namespace LicenseAudit.Text

/-- A character with the `White_Space` property. -/
def isBlank (c : Char) : Bool :=
  let n := c.toNat
  (9 ≤ n && n ≤ 13) || n == 0x20 || n == 0x85 || n == 0xA0 || n == 0x1680 ||
    (0x2000 ≤ n && n ≤ 0x200A) || n == 0x2028 || n == 0x2029 || n == 0x202F || n == 0x205F ||
    n == 0x3000

/-- The text from its first character that is not blank. -/
def dropBlank (cs : List Char) : List Char := cs.dropWhile isBlank

/-- The text without the blanks at both ends. -/
def trim (cs : List Char) : List Char := (dropBlank (dropBlank cs).reverse).reverse

/-- Nothing but blanks. -/
def allBlank (cs : List Char) : Bool := cs.all isBlank

/-- `trim` on strings. -/
def trimmed (s : String) : String := String.ofList (trim s.toList)

/-- `allBlank` on strings. -/
def blank (s : String) : Bool := allBlank s.toList

end LicenseAudit.Text
