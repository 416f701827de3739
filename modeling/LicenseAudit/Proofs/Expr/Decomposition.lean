import LicenseAudit.Proofs.Expr.TopLevel

/-!
# Texts taken apart

The cut at the first two tokens is stated here without the scan: each of its answers says that the
text can be taken apart in one way, and there is one answer that says that it cannot. The spaces
count as well as the tokens: a text is two tokens and an operand in one way only, with the same
spaces in front and between.

Results:
1. `Decomposes.unique`: the parts of a text with an operator are determined by the text.
2. `unwrap_eq_iff`: what is inside a token.
3. `split_decomposes`: when the cut gives which answer.
-/

namespace LicenseAudit.Expr

/-! ## Definitions -/

/-- The text is spaces, a token, at least one space, a token, one space, and any text at all. -/
structure Decomposes (cs a l s o r : List Char) : Prop where
  text : cs = a ++ l ++ s ++ o ++ ' ' :: r
  before : Spaces a
  left : Token l
  between : Spaces s
  apart : s ≠ []
  operator : Token o

/-- The text is one token with spaces around it. -/
def Lone (cs w : List Char) : Prop :=
  ∃ a b, cs = a ++ w ++ b ∧ Spaces a ∧ Token w ∧ Spaces b

/-- The text is two tokens with at least one space between them, and ends with the second one. -/
def Dangles (cs : List Char) : Prop :=
  ∃ a w s v, cs = a ++ w ++ s ++ v ∧ Spaces a ∧ Token w ∧ Spaces s ∧ s ≠ [] ∧ Token v

/-- What stands between the parentheses that enclose all of the token, or else the token itself. -/
def Inside (token inside : List Char) : Prop :=
  Wraps token inside ∨ (∀ other, ¬ Wraps token other) ∧ inside = token

/-! ## One way only -/

theorem Decomposes.topLevel {cs a l s o r : List Char} (h : Decomposes cs a l s o r) :
    TopLevel cs (.binary l o r) := by
  rw [h.text]
  exact .binary r h.before h.left h.between h.apart h.operator

/-- A text has no two decompositions: the cut finds the tokens and the operand, and what is left of
the text in front of them and between them is spaces. -/
theorem Decomposes.unique {cs a l s o r a' l' s' o' r' : List Char}
    (h : Decomposes cs a l s o r) (h' : Decomposes cs a' l' s' o' r') :
    a = a' ∧ l = l' ∧ s = s' ∧ o = o' ∧ r = r' := by
  have hcut : Split.binary l o r = .binary l' o' r' :=
    (split_of_topLevel h.topLevel).symm.trans (split_of_topLevel h'.topLevel)
  obtain ⟨rfl, rfl, rfl⟩ := Split.binary.inj hcut
  have htext : a ++ (l ++ s) = a' ++ (l ++ s') := by
    have := h.text.symm.trans h'.text
    rw [List.append_assoc _ o, List.append_assoc _ o] at this
    simpa only [List.append_assoc] using List.append_cancel_right this
  have hstart : l ++ s = l ++ s' := by
    have := congrArg dropSpaces htext
    rwa [dropSpaces_append h.before, dropSpaces_append h'.before, h.left.dropSpaces_append,
      h.left.dropSpaces_append] at this
  obtain rfl : s = s' := List.append_cancel_left hstart
  exact ⟨List.append_cancel_right htext, rfl, rfl, rfl, rfl⟩

/-! ## Inside a token -/

theorem unwrap_eq_iff {token inside : List Char} : unwrap token = inside ↔ Inside token inside := by
  constructor
  · rintro rfl
    exact unwrap_cases token
  · rintro (hw | ⟨hno, rfl⟩)
    · exact unwrap_of_wraps hw
    · exact unwrap_of_not_wraps hno

/-! ## The cut -/

theorem split_eq_empty_iff {cs : List Char} : split cs = .empty ↔ Spaces cs := by
  rw [split_eq_iff (by simp)]
  constructor
  · intro h
    cases h with
    | empty ha => exact ha
  · exact .empty

theorem split_eq_single_iff {cs inside : List Char} :
    split cs = .single inside ↔ ∃ w, Lone cs w ∧ Inside w inside := by
  rw [split_eq_iff (by simp)]
  constructor
  · intro h
    cases h with
    | single ha hw hb => exact ⟨_, ⟨_, _, rfl, ha, hw, hb⟩, unwrap_cases _⟩
  · rintro ⟨w, ⟨a, b, rfl, ha, hw, hb⟩, hinside⟩
    rw [← unwrap_eq_iff.2 hinside]
    exact .single ha hw hb

theorem split_eq_binary_iff {cs l o r : List Char} :
    split cs = .binary l o r ↔ ∃ a s, Decomposes cs a l s o r := by
  rw [split_eq_iff (by simp)]
  constructor
  · intro h
    cases h with
    | binary r ha hl hs hne ho => exact ⟨_, _, rfl, ha, hl, hs, hne, ho⟩
  · rintro ⟨a, s, h⟩
    exact h.topLevel

theorem split_eq_dangling_iff {cs : List Char} : split cs = .dangling ↔ Dangles cs := by
  rw [split_eq_iff (by simp)]
  constructor
  · intro h
    cases h with
    | dangling ha hl hs hne ho => exact ⟨_, _, _, _, rfl, ha, hl, hs, hne, ho⟩
  · rintro ⟨a, w, s, v, rfl, ha, hw, hs, hne, hv⟩
    exact .dangling ha hw hs hne hv

theorem split_eq_unbalanced_iff {cs : List Char} :
    split cs = .unbalanced ↔
      ¬ Spaces cs ∧ (¬ ∃ w, Lone cs w) ∧ (¬ ∃ a l s o r, Decomposes cs a l s o r) ∧
        ¬ Dangles cs := by
  constructor
  · intro h
    refine ⟨fun hs => ?_, ?_, ?_, fun hd => ?_⟩
    · cases h.symm.trans (split_eq_empty_iff.2 hs)
    · rintro ⟨w, hw⟩
      cases h.symm.trans (split_eq_single_iff.2 ⟨w, hw, unwrap_cases w⟩)
    · rintro ⟨a, l, s, o, r, hd⟩
      cases h.symm.trans (split_eq_binary_iff.2 ⟨a, s, hd⟩)
    · cases h.symm.trans (split_eq_dangling_iff.2 hd)
  · rintro ⟨hempty, hsingle, hbinary, hdangling⟩
    cases hs : split cs with
    | empty => exact absurd (split_eq_empty_iff.1 hs) hempty
    | single inside =>
      obtain ⟨w, hw, -⟩ := split_eq_single_iff.1 hs
      exact absurd ⟨w, hw⟩ hsingle
    | binary l o r =>
      obtain ⟨a, s, hd⟩ := split_eq_binary_iff.1 hs
      exact absurd ⟨a, l, s, o, r, hd⟩ hbinary
    | dangling => exact absurd (split_eq_dangling_iff.1 hs) hdangling
    | unbalanced => rfl

/-- The cut of a text is the way to take it apart: two tokens and the rest, of which there is one
way at most, nothing but spaces, one token, or two tokens and nothing behind. If there is no way, a
parenthesis has no partner. -/
theorem split_decomposes (cs : List Char) :
    (∀ l o r, split cs = .binary l o r ↔ ∃ a s, Decomposes cs a l s o r) ∧
      (∀ a l s o r a' l' s' o' r', Decomposes cs a l s o r → Decomposes cs a' l' s' o' r' →
        a = a' ∧ l = l' ∧ s = s' ∧ o = o' ∧ r = r') ∧
      (split cs = .empty ↔ Spaces cs) ∧
      (∀ inside, split cs = .single inside ↔ ∃ w, Lone cs w ∧ Inside w inside) ∧
      (split cs = .dangling ↔ Dangles cs) ∧
      (split cs = .unbalanced ↔
        ¬ Spaces cs ∧ (¬ ∃ w, Lone cs w) ∧ (¬ ∃ a l s o r, Decomposes cs a l s o r) ∧
          ¬ Dangles cs) :=
  ⟨fun _ _ _ => split_eq_binary_iff, fun _ _ _ _ _ _ _ _ _ _ h h' => h.unique h',
    split_eq_empty_iff, fun _ => split_eq_single_iff, split_eq_dangling_iff,
    split_eq_unbalanced_iff⟩

/-- A token may have spaces between parentheses, and there may be several spaces between tokens. -/
theorem split_decomposes_spaced :
    Decomposes "  (a  b)  && c) ".toList "  ".toList "(a  b)".toList "  ".toList "&&".toList
        "c) ".toList ∧
      split "  (a  b)  && c) ".toList = .binary "(a  b)".toList "&&".toList "c) ".toList ∧
      ∀ a l s o r, Decomposes "  (a  b)  && c) ".toList a l s o r →
        a = "  ".toList ∧ l = "(a  b)".toList ∧ s = "  ".toList ∧ o = "&&".toList ∧
          r = "c) ".toList := by
  have token_of_scan : ∀ {w : List Char}, w ≠ [] → takeToken 0 w = some (w, none) → Token w :=
    fun hne h => (token_of_takeToken_none hne h).2
  have hspaces : Spaces "  ".toList := by
    simp [Spaces]
  have h : Decomposes "  (a  b)  && c) ".toList "  ".toList "(a  b)".toList "  ".toList "&&".toList
      "c) ".toList :=
    ⟨rfl, hspaces, token_of_scan (by decide) rfl, hspaces, by decide, token_of_scan (by decide) rfl⟩
  have hsplit := split_decomposes "  (a  b)  && c) ".toList
  exact ⟨h, (hsplit.1 _ _ _).2 ⟨_, _, h⟩, fun a l s o r h' => hsplit.2.1 _ _ _ _ _ _ _ _ _ _ h' h⟩

end LicenseAudit.Expr
