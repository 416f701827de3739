/-!
# Decimal numbers

Numbers in decimal notation with a fraction and an exponent, read exactly, and the question whether
the nearest double-precision number is finite. How many digits stand before the point settles this
for most numbers, and only a band around the largest double is left to exact arithmetic.
-/

namespace LicenseAudit.Text

/-- The number `digits * 10 ^ exponent`. -/
structure Decimal where
  digits : Nat
  exponent : Int
  deriving DecidableEq, Repr

namespace Decimal

/-- The value of a digit. -/
def digitValue (c : Char) : Nat := c.toNat - 48

/-- The number that some digits denote. -/
def natOf (ds : List Char) : Nat := ds.foldl (fun n c => 10 * n + digitValue c) 0

/-- The exponent of a number: nothing, or a mark with an optional sign and some digits. -/
def readExponent (cs : List Char) : Option Int :=
  match cs with
  | [] => some 0
  | c :: rest =>
    if c = 'e' ∨ c = 'E' then
      let negative := rest.head? = some '-'
      let ds := if negative ∨ rest.head? = some '+' then rest.tail else rest
      if ds ≠ [] ∧ ds.all Char.isDigit then
        some (if negative then -(natOf ds : Int) else (natOf ds : Int))
      else none
    else none

/-- Reads a number without a sign. There is a digit before or behind the point, which may be
missing. -/
def read? (cs : List Char) : Option Decimal :=
  let whole := cs.takeWhile Char.isDigit
  let rest := cs.dropWhile Char.isDigit
  let fraction := if rest.head? = some '.' then rest.tail.takeWhile Char.isDigit else []
  let rest := if rest.head? = some '.' then rest.tail.dropWhile Char.isDigit else rest
  if whole = [] ∧ fraction = [] then none
  else (readExponent rest).map fun e => ⟨natOf (whole ++ fraction), e - fraction.length⟩

/-- The least number that is rounded to infinity. -/
def overflow : Nat := Nat.pow 2 1024 - Nat.pow 2 970

/-- The nearest double-precision number is finite. -/
def fitsDouble (d : Decimal) : Bool :=
  if d.digits = 0 then true
  else
    let magnitude : Int := (Nat.toDigits 10 d.digits).length + d.exponent
    if magnitude < 300 then true
    else if 310 < magnitude then false
    else if 0 ≤ d.exponent then d.digits * Nat.pow 10 d.exponent.toNat < overflow
    else d.digits < overflow * Nat.pow 10 (-d.exponent).toNat

end Decimal

end LicenseAudit.Text
