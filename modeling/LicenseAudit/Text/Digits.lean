/-!
# Digits

Numbers as digits in a base of at most 16, and the characters that hexadecimal digits stand for.

Main statement: the hexadecimal digits of a number read back as that number, as far as they reach
(`hexNumber?_hexDigits`).
-/

namespace LicenseAudit.Text

/-- The value of a hexadecimal digit. -/
def hexValue? (c : Char) : Option Nat :=
  if '0' ≤ c ∧ c ≤ '9' then some (c.toNat - 48)
  else if 'a' ≤ c ∧ c ≤ 'f' then some (c.toNat - 87)
  else if 'A' ≤ c ∧ c ≤ 'F' then some (c.toNat - 55)
  else none

/-- The value of some hexadecimal digits, most significant one first. -/
def hexNumber? (digits : List Char) : Option Nat :=
  digits.foldl (fun acc c => acc.bind fun n => (hexValue? c).map (16 * n + ·)) (some 0)

/-- The character with the number that some hexadecimal digits denote. -/
def hexChar? (digits : List Char) : Option Char :=
  (hexNumber? digits).bind fun n => if n.isValidChar then some (Char.ofNat n) else none

/-- So many hexadecimal digits of a number, most significant one first. -/
def hexDigits : Nat → Nat → List Char
  | 0, _ => []
  | width + 1, n => hexDigits width (n / 16) ++ [(Nat.digitChar (n % 16)).toUpper]

/-- A digit in a base of at most 16. -/
def isDigitOf (base : Nat) (c : Char) : Bool := (hexValue? c).any (· < base)

/-- The number that some digits of a base denote. -/
def numberIn (base : Nat) (ds : List Char) : Nat :=
  ds.foldl (fun n c => base * n + (hexValue? c).getD 0) 0

/-- The text without a sign in front. -/
def withoutSign (cs : List Char) : List Char :=
  match cs with
  | '+' :: rest => rest
  | '-' :: rest => rest
  | _ => cs

theorem hexValue?_digitChar {n : Nat} (h : n < 16) :
    hexValue? (Nat.digitChar n).toUpper = some n := by
  have : ∀ m < 16, hexValue? (Nat.digitChar m).toUpper = some m := by decide
  exact this n h

theorem hexNumber?_concat (ds : List Char) (c : Char) :
    hexNumber? (ds ++ [c]) = (hexNumber? ds).bind fun n => (hexValue? c).map (16 * n + ·) := by
  simp [hexNumber?]

theorem hexNumber?_hexDigits (width n : Nat) :
    hexNumber? (hexDigits width n) = some (n % Nat.pow 16 width) := by
  induction width generalizing n with
  | zero => simp [hexDigits, hexNumber?, Nat.mod_one]
  | succ width ih =>
    rw [hexDigits, hexNumber?_concat, ih, hexValue?_digitChar (Nat.mod_lt n (by decide))]
    simp only [Option.bind_some, Option.map_some, Option.some.injEq]
    rw [Nat.pow_eq, Nat.pow_eq, Nat.pow_succ, Nat.mul_comm _ 16, Nat.mod_mul]
    omega

end LicenseAudit.Text
