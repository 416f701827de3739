import LicenseAudit.Proofs.Expr.Grammar

/-!
# Unbalanced texts

The scan stops at the second token and leaves the rest unread, so a parenthesis without a partner may
be found late, or after another fault. It is never overlooked: what the grammar gives is balanced. It
is never made up either, since a balanced text is cut into balanced parts, and the tokens of any text
are balanced. What is left is the text behind an operator, and so an unbalanced part is an end of the
text that is read.

Results:
1. `Balanced.split_ne`: the cut of a balanced text finds all parentheses with their partners.
2. `unbalanced_of_parseAt`: a text that is refused as unbalanced is unbalanced, at its end.
3. `parse_unbalanced`: unbalanced texts are refused, and only those as unbalanced.
-/

namespace LicenseAudit.Expr

/-! ## The cut of a balanced text -/

theorem exists_takeToken {depth : Nat} {cs : List Char} (h : nesting depth cs = some 0) :
    ∃ token rest, takeToken depth cs = some (token, rest) := by
  induction cs generalizing depth with
  | nil =>
    obtain rfl := Option.some.inj h
    exact ⟨[], none, rfl⟩
  | cons c cs ih =>
    rw [takeToken_cons]
    split
    · exact ⟨[], some cs, rfl⟩
    · rw [nesting_cons, Option.bind_eq_some_iff] at h
      obtain ⟨k, hk, h⟩ := h
      obtain ⟨token, rest, ht⟩ := ih h
      exact ⟨c :: token, rest, by rw [hk, Option.bind_some, ht]; rfl⟩

theorem Balanced.exists_takeToken {cs : List Char} (h : Balanced cs) :
    ∃ token rest, takeToken 0 cs = some (token, rest) :=
  Expr.exists_takeToken (nesting_zero_iff.2 h)

theorem Balanced.dropSpaces {cs : List Char} (h : Balanced cs) : Balanced (dropSpaces cs) := by
  obtain ⟨a, ha, hcs⟩ := exists_spaces_append_dropSpaces cs
  rw [hcs] at h
  exact h.of_append ha.balanced

/-- Behind a token and its space, a balanced text goes on balanced. -/
theorem Balanced.of_takeToken {cs token rest : List Char} (h : Balanced cs)
    (ht : takeToken 0 cs = some (token, some rest)) : Balanced rest := by
  obtain ⟨rfl, hn, -⟩ := takeToken_eq_some_some.1 ht
  exact (h.of_append (nesting_zero_iff.1 hn)).of_append (a := [' ']) balanced_space

theorem Balanced.split_ne {cs : List Char} (h : Balanced cs) : split cs ≠ .unbalanced := by
  by_cases hne : Expr.dropSpaces cs = []
  · simp only [split, hne, ne_eq, reduceCtorEq, not_false_eq_true]
  · rw [split_of_takeToken rfl hne]
    obtain ⟨first, rest, hfirst⟩ := h.dropSpaces.exists_takeToken
    rw [hfirst]
    cases rest with
    | none => simp
    | some rest =>
      obtain ⟨second, right, hsecond⟩ :=
        (h.dropSpaces.of_takeToken hfirst).dropSpaces.exists_takeToken
      simp only [hsecond]
      split
      · simp
      · cases right <;> simp

/-- A text that looks like no cut is unbalanced. -/
theorem not_balanced_of_not_topLevel {cs : List Char} (h : ∀ s, ¬ TopLevel cs s) :
    ¬ Balanced cs := fun hb => h _ (topLevel_split hb.split_ne)

theorem Balanced.unwrap {token : List Char} (h : Balanced token) : Balanced (unwrap token) := by
  rcases unwrap_cases token with hw | ⟨-, hw⟩
  · exact hw.2
  · rwa [hw]

/-! ## The part that is refused -/

/-- Only a part behind operators is refused as unbalanced: it is an end of the text, and the text is
unbalanced too. -/
theorem unbalanced_of_parseAt {n : Nat} {cs : List Char} {path : List Step} {part : String}
    (h : parseAt n cs = .error ⟨path, .unbalanced part⟩) :
    ¬ Balanced cs ∧ part.toList <:+ cs ∧ ¬ Balanced part.toList := by
  induction n generalizing cs path with
  | zero => cases h
  | succ n ih =>
    rw [parseAt_succ, Form.read_eq_error] at h
    have hf := formOf_form cs
    generalize form cs = f at h hf
    cases hf with
    | blank | atom | blankToken | blankRight | dangling => cases h
    | inner _ hw => exact absurd hw.balanced.unwrap (ih h).1
    | negation ht =>
      obtain ⟨⟨p, f⟩, hop, heq⟩ := h
      cases heq
      exact absurd (token_negation_iff.1 ht).1 (ih hop).1
    | @binary a l s o r ha hl hs _ ho _ =>
      obtain ⟨⟨p, f⟩, hleft, heq⟩ | ⟨_, ⟨p, f⟩, -, hright, heq⟩ | ⟨_, _, -, -, -, heq⟩ := h
      · cases heq
        exact absurd hl.balanced (ih hleft).1
      · cases heq
        obtain ⟨hr, hsuffix, hpart⟩ := ih hright
        have hfront : Balanced (a ++ l ++ s ++ o ++ [' ']) :=
          (((ha.balanced.append hl.balanced).append hs.balanced).append ho.balanced).append
            balanced_space
        have hcs : a ++ l ++ s ++ o ++ ' ' :: r = a ++ l ++ s ++ o ++ [' '] ++ r := by simp
        rw [hcs]
        exact ⟨fun hb => hr (hb.of_append hfront), hsuffix.trans (List.suffix_append _ _), hpart⟩
      · cases heq
    | unbalanced hno =>
      cases h
      have hb := not_balanced_of_not_topLevel hno
      rw [String.toList_ofList]
      exact ⟨hb, List.suffix_rfl, hb⟩

/-! ## The parser -/

/-- An unbalanced text is refused. A text that is refused as unbalanced is unbalanced, and so is the
part of it that the error names. -/
theorem parse_unbalanced (text : String) :
    (¬ Balanced text.toList → ∃ error, parse text = .error error) ∧
      ∀ path part, parse text = .error ⟨path, .unbalanced part⟩ →
        ¬ Balanced text.toList ∧ part.toList <:+: text.toList ∧ ¬ Balanced part.toList := by
  refine ⟨fun hno => ?_, fun path part h => ?_⟩
  · cases hparse : parse text with
    | error error => exact ⟨error, rfl⟩
    | ok e => exact absurd (reads_of_parseAt hparse).balanced hno
  · obtain ⟨hno, hsuffix, hpart⟩ := unbalanced_of_parseAt h
    exact ⟨hno, hsuffix.isInfix, hpart⟩

example : parse "a && (b) || c)" = .error ⟨[.right, .right], .unbalanced "c)"⟩ := rfl

end LicenseAudit.Expr
