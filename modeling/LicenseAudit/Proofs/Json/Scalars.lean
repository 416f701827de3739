import LicenseAudit.Json.Basic
import LicenseAudit.Json.Reader
import Mathlib.Data.List.Basic

/-!
# Strings and numbers read back

A string is written character by character. A reader finds one part for each of them, a character or
a code unit, and no part is half of a surrogate pair, so that the parts give the text back. A number
ends where something follows that is no part of a number.

Results:
1. `readPieces_escape`: a written character is read as one part.
2. `readString_append`: a string is read back.
3. `skipNumber_append`: a number is read up to its end.
-/

namespace LicenseAudit.Json

variable {c : Char} {cs rest : List Char}

/-! ## Strings -/

/-- The characters with an escape of two characters. -/
def shortEscapes : List Char := ['"', '\\', '\x08', '\x0c', '\n', '\r', '\t']

/-- The part that a reader finds for a character: a code unit if it was written as one. -/
def pieceOf (c : Char) : Piece :=
  if c ∉ shortEscapes ∧ c.toNat < 0x20 then .unit c.toNat else .char c

theorem escape_of_notMem (h : c ∉ shortEscapes) :
    escape c =
      if c.toNat < 0x20 then
        ['\\', 'u', '0', '0', hexDigit (c.toNat / 16), hexDigit c.toNat]
      else [c] := by
  simp only [shortEscapes, List.mem_cons, List.not_mem_nil, or_false, not_or] at h
  obtain ⟨hquote, hslash, hb, hf, hn, hr, ht⟩ := h
  simp [escape, hquote, hslash, hb, hf, hn, hr, ht]

theorem hexNumber?_control {n : Nat} (h : n < 0x20) :
    Text.hexNumber? ['0', '0', hexDigit (n / 16), hexDigit n] = some n := by
  have hall : ∀ m < 0x20, Text.hexNumber? ['0', '0', hexDigit (m / 16), hexDigit m] = some m := by
    decide
  exact hall n h

theorem readPieces_char (hcontrol : ¬ c.toNat < 0x20) (hquote : c ≠ '"') (hslash : c ≠ '\\') :
    readPieces (c :: rest) = (readPieces rest).map fun p => (.char c :: p.1, p.2) := by
  rw [readPieces.eq_def]
  simp [hcontrol, hslash]

/-- What was written for a character is read as one part. -/
theorem readPieces_escape (c : Char) (rest : List Char) :
    readPieces (escape c ++ rest) = (readPieces rest).map fun p => (pieceOf c :: p.1, p.2) := by
  by_cases hshort : c ∈ shortEscapes
  · have hpiece : pieceOf c = .char c := if_neg fun h => h.1 hshort
    rw [hpiece]
    simp only [shortEscapes, List.mem_cons, List.not_mem_nil, or_false] at hshort
    rcases hshort with rfl | rfl | rfl | rfl | rfl | rfl | rfl <;> rfl
  · rw [escape_of_notMem hshort, pieceOf]
    by_cases hcontrol : c.toNat < 0x20
    · rw [if_pos hcontrol, if_pos ⟨hshort, hcontrol⟩]
      simp only [List.cons_append, List.nil_append]
      rw [readPieces, hexNumber?_control hcontrol]
    · rw [if_neg hcontrol, if_neg fun h => hcontrol h.2]
      have hne : c ≠ '"' ∧ c ≠ '\\' := by
        constructor <;> (rintro rfl; exact hshort (by decide))
      exact readPieces_char hcontrol hne.1 hne.2

theorem readPieces_flatMap (cs rest : List Char) :
    readPieces (cs.flatMap escape ++ '"' :: rest) = some (cs.map pieceOf, rest) := by
  induction cs with
  | nil => rfl
  | cons c cs ih =>
    rw [List.flatMap_cons, List.append_assoc, readPieces_escape, ih]
    rfl

/-- A code unit below the surrogates is a character, whatever follows. -/
theorem textOf_unit {n : Nat} (h : n < 0xD800) (ps : List Piece) :
    textOf (.unit n :: ps) = (textOf ps).map (Char.ofNat n :: ·) := by
  have hhigh : ¬ (0xD800 ≤ n ∧ n ≤ 0xDBFF) := by omega
  have hlow : ¬ (0xDC00 ≤ n ∧ n ≤ 0xDFFF) := by omega
  have hboth : ¬ (0xD800 ≤ n ∧ n ≤ 0xDFFF) := by omega
  cases ps with
  | nil => simp [textOf, hboth]
  | cons p ps =>
    cases p with
    | char c => simp [textOf, hboth]
    | unit low => rw [textOf, if_neg hhigh, if_neg hlow]

theorem textOf_pieceOf (c : Char) (ps : List Piece) :
    textOf (pieceOf c :: ps) = (textOf ps).map (c :: ·) := by
  rw [pieceOf]
  split
  · next h => rw [textOf_unit (by omega), Char.ofNat_toNat]
  · rfl

theorem textOf_map_pieceOf (cs : List Char) : textOf (cs.map pieceOf) = some cs := by
  induction cs with
  | nil => rfl
  | cons c cs ih =>
    rw [List.map_cons, textOf_pieceOf, ih]
    rfl

/-- What was written for a text, up to the quote that closes it, is read as that text. -/
theorem readString_append (s : String) (rest : List Char) :
    readString (s.toList.flatMap escape ++ '"' :: rest) = some (some s, rest) := by
  rw [readString, readPieces_flatMap]
  simp [textOf_map_pieceOf]

/-! ## Numbers -/

/-- A number that stands before this text ends there. -/
def EndsNumber (rest : List Char) : Prop :=
  ∀ c ∈ rest.head?, c.isDigit = false ∧ c ≠ '.' ∧ c ≠ 'e' ∧ c ≠ 'E'

theorem eq_zero_of_head?_toDigits {n : Nat} (h : (Nat.toDigits 10 n).head? = some '0') : n = 0 := by
  induction n using Nat.strongRecOn with
  | ind n ih =>
    by_cases hn : n < 10
    · rw [Nat.toDigits_of_lt_base hn] at h
      have hall : ∀ m < 10, Nat.digitChar m = '0' → m = 0 := by decide
      exact hall n hn (Option.some.inj h)
    · rw [Nat.toDigits_of_base_le (by decide) (by omega),
        List.head?_append_of_ne_nil _ Nat.toDigits_ne_nil] at h
      have hzero := ih (n / 10) (by omega) h
      omega

theorem dropWhile_isDigit_append {ds : List Char} (hds : ∀ c ∈ ds, c.isDigit = true)
    (hrest : EndsNumber rest) : (ds ++ rest).dropWhile Char.isDigit = rest := by
  rw [List.dropWhile_append_of_pos hds]
  cases rest with
  | nil => rfl
  | cons c rest => rw [List.dropWhile_cons, if_neg (by simp [(hrest c rfl).1])]

/-- A number is written with at least one digit, and with nothing else. -/
theorem exists_digits (n : Nat) :
    ∃ d ds, Nat.toDigits 10 n = d :: ds ∧ d.isDigit = true ∧ ∀ c ∈ ds, c.isDigit = true := by
  obtain ⟨d, ds, hds⟩ := List.exists_cons_of_ne_nil (Nat.toDigits_ne_nil (n := n) (b := 10))
  have hdigits : ∀ c ∈ d :: ds, c.isDigit = true := fun c hc =>
    Nat.isDigit_of_mem_toDigits (by decide) (by decide) (hds ▸ hc)
  exact ⟨d, ds, hds, List.forall_mem_cons.1 hdigits⟩

theorem ne_of_isDigit {d : Char} (hd : d.isDigit = true) (hc : c.isDigit = false) : d ≠ c := by
  rintro rfl
  rw [hd] at hc
  cases hc

theorem skipInteger_append (n : Nat) (hrest : EndsNumber rest) :
    skipInteger (Nat.toDigits 10 n ++ rest) = some rest := by
  obtain ⟨d, ds, hds, hd, htail⟩ := exists_digits n
  have hzero : d = '0' → ds = [] := by
    rintro rfl
    obtain rfl := eq_zero_of_head?_toDigits (n := n) (by rw [hds, List.head?_cons])
    exact (List.cons.inj hds).2.symm
  rw [hds, List.cons_append]
  have hskip : skipDigits (d :: (ds ++ rest)) = some rest := by
    rw [skipDigits, if_pos hd, dropWhile_isDigit_append htail hrest]
  rw [skipInteger.eq_def]
  split
  · next c tail heq =>
    -- A number that starts with a zero has no other digit.
    obtain ⟨hfirst, hbehind⟩ := List.cons.inj heq
    rw [hzero hfirst, List.nil_append] at hbehind
    rw [if_neg (by simp [(hrest c (hbehind ▸ rfl)).1]), hbehind]
  · exact hskip

/-- The digits of a number end where the number ends, and it has neither a sign nor a fraction nor
an exponent. -/
theorem skipNumber_append (n : Nat) (hrest : EndsNumber rest) :
    skipNumber ((Nat.repr n).toList ++ rest) = some rest := by
  rw [Nat.toList_repr]
  have hsign : ∀ tail, Nat.toDigits 10 n ++ rest ≠ '-' :: tail := by
    obtain ⟨d, ds, hds, hd, -⟩ := exists_digits n
    intro tail heq
    rw [hds] at heq
    exact ne_of_isDigit hd (by decide) (List.cons.inj heq).1
  have hfraction : skipFraction rest = some rest := by
    cases rest with
    | nil => rfl
    | cons c rest => simp [skipFraction, (hrest c rfl).2.1]
  have hexponent : skipExponent rest = some rest := by
    cases rest with
    | nil => rfl
    | cons c rest => simp [skipExponent, (hrest c rfl).2.2]
  rw [skipNumber, skipInteger_append n hrest]
  · simp [hfraction, hexponent]
  · exact hsign

end LicenseAudit.Json
