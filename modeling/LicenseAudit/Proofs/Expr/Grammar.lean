import LicenseAudit.Proofs.Expr.Form

/-!
# The grammar of expressions

`Reads cs e` says that the text `cs` is a way to write the expression `e`. The rules are those a
user would be told; none of them mentions levels, tokens or cuts.

Results:
1. `reads_of_parseAt`: whatever the parser returns, the grammar gives.
2. `exists_parseAt_of_reads`: whatever the grammar gives, the parser returns if it may go deep
   enough.
3. `Reads.unique`: no text is a way to write two expressions.
-/

namespace LicenseAudit.Expr

/-! ## Definitions -/

/-- The ways to write an expression.

* `atom`: a text that is no negation and has no parentheses around it stands for itself.
* `empty`: the empty text is the empty name. No other rule but `not` takes it further, since the
  parts they join are not blank.
* `not`: what is negated has no spaces outside parentheses.
* `binary`: the left operand has no such spaces either, so operators group to the right.
* `paren`, `pad`: parentheses around a whole text and spaces at its ends change nothing. -/
inductive Reads : List Char → Expr → Prop
  | atom {a : List Char} : Text.allBlank a = false → Balanced a → ¬ OuterSpace a →
      a.head? ≠ some '!' → (∀ w, Balanced w → a ≠ '(' :: (w ++ [')'])) →
      Reads a (.literal (String.ofList a))
  | empty : Reads [] (.literal "")
  | not {w : List Char} {e : Expr} : Reads w e → ¬ OuterSpace w → Reads ('!' :: w) (.not e)
  | binary {l s o r : List Char} {join : Expr → Expr → Expr} {a b : Expr} :
      Reads l a → l ≠ [] → ¬ OuterSpace l → Spaces s → s ≠ [] → Connects o join →
      Reads r b → Text.allBlank r = false → Reads (l ++ s ++ o ++ ' ' :: r) (join a b)
  | paren {w : List Char} {e : Expr} : Reads w e → Text.allBlank w = false →
      Reads ('(' :: (w ++ [')'])) e
  | pad {a w b : List Char} {e : Expr} : Reads w e → Spaces a → Spaces b → Reads (a ++ w ++ b) e

/-! ## Whatever the parser returns, the grammar gives -/

theorem reads_of_atom {cs : List Char} (h : Atom cs) : Reads cs (.literal (String.ofList cs)) :=
  .atom h.not_blank h.token.balanced h.token.no_outerSpace h.not_negated
    fun w hw heq => h.not_wrapped w ⟨heq, hw⟩

theorem reads_of_spaces {a : List Char} (h : Spaces a) : Reads a (.literal "") := by
  simpa using Reads.pad .empty h .nil

/-- A text is written like what it has inside. -/
theorem reads_of_unwrap {w : List Char} {e : Expr} (h : Reads (unwrap w) e)
    (hb : Text.allBlank (unwrap w) = false) : Reads w e := by
  rcases unwrap_cases w with hw | ⟨-, hw⟩
  · have := Reads.paren h hb
    rwa [← hw.1] at this
  · rwa [hw] at h

theorem reads_of_parseAt {n : Nat} {cs : List Char} {e : Expr} (h : parseAt n cs = .ok e) :
    Reads cs e := by
  induction n generalizing cs e with
  | zero => cases h
  | succ n ih =>
    rw [parseAt_succ, Form.read_eq_ok] at h
    have hf := formOf_form cs
    generalize form cs = f at h hf
    cases hf with
    | blank ha =>
      obtain rfl := Except.ok.inj h
      exact reads_of_spaces ha
    | atom ha =>
      obtain rfl := Except.ok.inj h
      exact reads_of_atom ha
    | inner ha _ hb hblank _ => exact .pad (reads_of_unwrap (ih h) hblank) ha hb
    | negation ht =>
      obtain ⟨a, ha, rfl⟩ := h
      exact .not (ih ha) (token_negation_iff.1 ht).2
    | @binary a l s o r ha hl hs hne _ hblank =>
      obtain ⟨join, el, er, hop, hel, her, rfl⟩ := h
      have := Reads.binary (ih hel) hl.ne_nil hl.no_outerSpace hs hne hop (ih her) hblank
      simpa using Reads.pad this ha .nil
    | blankToken => cases h
    | blankRight => cases h
    | dangling => cases h
    | unbalanced => cases h

/-! ## Whatever the grammar gives, the parser returns -/

theorem Connects.token {o : List Char} {join : Expr → Expr → Expr} (h : Connects o join) :
    Token o := by
  cases h <;>
    exact ⟨by decide, balanced_of_no_parenthesis (by decide) (by decide),
      fun hs => absurd hs.mem (by decide)⟩

/-- Every text that can be read is balanced. -/
theorem Reads.balanced {cs : List Char} {e : Expr} (h : Reads cs e) : Balanced cs := by
  induction h with
  | atom _ hb _ _ _ => exact hb
  | empty => exact .nil
  | not _ _ ih => exact balanced_negation.append ih
  | binary _ _ _ hs _ hop _ _ ihl ihr =>
    exact ((ihl.append hs.balanced).append hop.token.balanced).append (balanced_space.append ihr)
  | paren _ _ ih => exact ih.wrap
  | pad _ ha hb ih => exact (ha.balanced.append ih).append hb.balanced

theorem exists_parseAt_of_inner {cs inside : List Char} {e : Expr} (hf : form cs = .inner inside)
    (h : ∃ n, parseAt n inside = .ok e) : ∃ n, parseAt n cs = .ok e := by
  obtain ⟨n, hn⟩ := h
  exact ⟨n + 1, by rw [parseAt_succ, hf]; exact hn⟩

theorem exists_parseAt_of_binary {cs l o r : List Char} {join : Expr → Expr → Expr} {a b : Expr}
    (hf : form cs = .binary l o r) (hop : Connects o join) (hl : ∃ n, parseAt n l = .ok a)
    (hr : ∃ n, parseAt n r = .ok b) : ∃ n, parseAt n cs = .ok (join a b) := by
  obtain ⟨n, hn⟩ := hl
  obtain ⟨m, hm⟩ := hr
  refine ⟨max n m + 1, ?_⟩
  rw [parseAt_succ, hf, Form.read_eq_ok]
  exact ⟨join, a, b, hop, parseAt_ok_of_le hn (Nat.le_max_left n m),
    parseAt_ok_of_le hm (Nat.le_max_right n m), rfl⟩

theorem Token.exists_parseAt_pad {a w b : List Char} {e : Expr} (hw : Token w) (ha : Spaces a)
    (hb : Spaces b) (hblank : Text.allBlank (unwrap w) = false)
    (h : ∃ n, parseAt n (unwrap w) = .ok e) : ∃ n, parseAt n (a ++ w ++ b) = .ok e := by
  by_cases hne : unwrap w = a ++ w ++ b
  · rwa [hne] at h
  · exact exists_parseAt_of_inner (form_of_formOf (.inner ha hw hb hblank hne)) h

/-- Spaces at the ends never keep a text from being read. They may cost a level, so this is no
matter of one number of levels. -/
theorem exists_parseAt_pad {n : Nat} {a w b : List Char} {e : Expr} (h : parseAt n w = .ok e)
    (ha : Spaces a) (hb : Spaces b) : ∃ n, parseAt n (a ++ w ++ b) = .ok e := by
  induction n generalizing a w b e with
  | zero => cases h
  | succ n ih =>
    have hn := h
    rw [parseAt_succ, Form.read_eq_ok] at h
    have hf := formOf_form w
    generalize form w = f at h hf
    cases hf with
    | blank hw =>
      have := form_of_formOf (.blank ((ha.append hw).append hb))
      exact ⟨1, by rw [parseAt_succ, this]; exact h⟩
    | atom hw =>
      have hself := unwrap_of_not_wraps hw.not_wrapped
      exact hw.token.exists_parseAt_pad ha hb (by rw [hself]; exact hw.not_blank)
        (by rw [hself]; exact ⟨_, hn⟩)
    | @inner a' t b' ha' ht hb' hblank _ =>
      have := ht.exists_parseAt_pad (ha.append ha') (hb'.append hb) hblank ⟨n, h⟩
      simpa using this
    | negation ht =>
      exact ht.exists_parseAt_pad ha hb (by rw [unwrap_negation]; exact allBlank_negation _)
        (by rw [unwrap_negation]; exact ⟨_, hn⟩)
    | @binary a' l s o r ha' hl hs hne ho hblank =>
      obtain ⟨join, el, er, hop, hel, her, rfl⟩ := h
      have hform := form_of_formOf
        (.binary (ha.append ha') hl hs hne ho (allBlank_append_of_left hblank b))
      have hr : ∃ n, parseAt n (r ++ b) = .ok er := by
        simpa using ih her .nil hb
      have := exists_parseAt_of_binary hform hop ⟨n, hel⟩ hr
      simpa using this
    | blankToken => cases h
    | blankRight => cases h
    | dangling => cases h
    | unbalanced => cases h

theorem exists_parseAt_of_reads {cs : List Char} {e : Expr} (h : Reads cs e) :
    ∃ n, parseAt n cs = .ok e := by
  induction h with
  | @atom a hblank hb hs hneg hw =>
    have hne : a ≠ [] := by
      rintro rfl
      cases hblank
    have hatom : Atom a := ⟨⟨hne, hb, hs⟩, hblank, hneg, fun w h => hw w h.2 h.1⟩
    exact ⟨1, by rw [parseAt_succ, form_of_formOf (.atom hatom)]; rfl⟩
  | empty =>
    exact ⟨1, by rw [parseAt_succ, form_of_formOf (.blank .nil)]; rfl⟩
  | @not w e hw hs ih =>
    obtain ⟨n, hn⟩ := ih
    have ht : Token ('!' :: w) := token_negation_iff.2 ⟨hw.balanced, hs⟩
    refine ⟨n + 1, ?_⟩
    rw [parseAt_succ, form_of_formOf (.negation ht), Form.read_eq_ok]
    exact ⟨e, hn, rfl⟩
  | @binary l s o r join a b hl hne hls hs hsne hop _ hblank ihl ihr =>
    have hform :=
      form_of_formOf (.binary .nil ⟨hne, hl.balanced, hls⟩ hs hsne hop.token hblank)
    exact exists_parseAt_of_binary hform hop ihl ihr
  | @paren w e hw hblank ih =>
    have hwrap : unwrap ('(' :: (w ++ [')'])) = w := unwrap_of_wraps ⟨rfl, hw.balanced⟩
    have := hw.balanced.token_wrap.exists_parseAt_pad .nil .nil (by rwa [hwrap]) (by rwa [hwrap])
    simpa using this
  | pad _ ha hb ih =>
    obtain ⟨n, hn⟩ := ih
    exact exists_parseAt_pad hn ha hb

/-- A text is a way to write one expression at most. -/
theorem Reads.unique {cs : List Char} {e e' : Expr} (h : Reads cs e) (h' : Reads cs e') :
    e = e' := by
  obtain ⟨n, hn⟩ := exists_parseAt_of_reads h
  obtain ⟨m, hm⟩ := exists_parseAt_of_reads h'
  have hn := parseAt_ok_of_le hn (Nat.le_max_left n m)
  have hm := parseAt_ok_of_le hm (Nat.le_max_right n m)
  exact Except.ok.inj (hn.symm.trans hm)

end LicenseAudit.Expr
