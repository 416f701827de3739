import LicenseAudit.Expr.Parse
import LicenseAudit.Proofs.Expr.TopLevel

/-!
# One level of reading

`form` says what reading a text comes down to: nothing more, the same task for a shorter text, or
the same task for the operands of a negation or of an operator. It does not depend on the levels
that are left, so reading is the repetition of one step.

Results:
1. `parseAt_succ`: the parser is that repetition.
2. `Form.read_eq_ok`, `Form.read_eq_error`: how a step can succeed, and how it can fail.
3. `formOf_form`, `form_of_formOf`: the forms, and how the texts of each of them look.
4. `parseAt_of_le`: an answer other than "too deep" stays when more levels are allowed.
-/

namespace LicenseAudit.Expr

/-! ## Definitions -/

/-- What reading a text comes down to. -/
inductive Form where
  | settled (result : Except ParseError Expr)
  | inner (token : List Char)
  | negation (operand : List Char)
  | binary (left operator right : List Char)

/-- The form of a text that is one token. -/
def tokenForm (token : List Char) : Form :=
  match token with
  | '!' :: operand => .negation operand
  | _ => .settled (.ok (.literal (String.ofList token)))

/-- The form of a text. -/
def form (cs : List Char) : Form :=
  match split cs with
  | .empty => .settled (.ok (.literal ""))
  | .unbalanced => .settled (.error (.here (.unbalanced (String.ofList cs))))
  | .dangling => .settled (.error (.here (.missingOperand (String.ofList cs))))
  | .single token =>
    if Text.allBlank token then
      .settled (.error (.here (.missingOperand (String.ofList (Text.trim cs)))))
    else if token ≠ cs then .inner token
    else tokenForm token
  | .binary left operator right =>
    if Text.allBlank right then
      .settled (.error (.here
        (.missingOperand (String.ofList (left ++ ' ' :: operator ++ ' ' :: right)))))
    else .binary left operator right

/-- The operators, each with the expression it makes of its operands. -/
inductive Connects : List Char → (Expr → Expr → Expr) → Prop
  | and : Connects ['&', '&'] .and
  | or : Connects ['|', '|'] .or

/-- Joins the results of two operands by an operator, which is judged after them. -/
def joined (operator : List Char) (left right : Except ParseError Expr) :
    Except ParseError Expr := do
  let l ← left.mapError (·.under .left)
  let r ← right.mapError (·.under .right)
  match operator with
  | ['&', '&'] => .ok (.and l r)
  | ['|', '|'] => .ok (.or l r)
  | _ => .error (.here (.invalidOperator (String.ofList operator)))

/-- Reads a text by its form, when `go` reads the texts one level down. -/
def Form.read (go : List Char → Except ParseError Expr) : Form → Except ParseError Expr
  | settled result => result
  | inner token => go token
  | negation operand => ((go operand).mapError (·.under .negation)).map .not
  | binary left operator right => joined operator (go left) (go right)

/-- There were not enough levels. -/
def TooDeep (result : Except ParseError Expr) : Prop :=
  ∃ path, result = .error ⟨path, .tooDeep maxDepth⟩

/-- A text that is read as a name or constant: one token that is not blank, with neither `!` in
front nor parentheses around it. -/
structure Atom (cs : List Char) : Prop where
  token : Token cs
  not_blank : Text.allBlank cs = false
  not_negated : cs.head? ≠ some '!'
  not_wrapped : ∀ inside, ¬ Wraps cs inside

/-- How the texts of each form look. -/
inductive FormOf : List Char → Form → Prop
  | blank {a : List Char} : Spaces a → FormOf a (.settled (.ok (.literal "")))
  | atom {cs : List Char} : Atom cs → FormOf cs (.settled (.ok (.literal (String.ofList cs))))
  | inner {a w b : List Char} : Spaces a → Token w → Spaces b →
      Text.allBlank (unwrap w) = false → unwrap w ≠ a ++ w ++ b →
      FormOf (a ++ w ++ b) (.inner (unwrap w))
  | negation {operand : List Char} : Token ('!' :: operand) →
      FormOf ('!' :: operand) (.negation operand)
  | binary {a l s o r : List Char} : Spaces a → Token l → Spaces s → s ≠ [] → Token o →
      Text.allBlank r = false → FormOf (a ++ l ++ s ++ o ++ ' ' :: r) (.binary l o r)
  | blankToken {a w b : List Char} : Spaces a → Token w → Spaces b →
      Text.allBlank (unwrap w) = true →
      FormOf (a ++ w ++ b) (.settled (.error (.here
        (.missingOperand (String.ofList (Text.trim (a ++ w ++ b)))))))
  | blankRight {a l s o r : List Char} : Spaces a → Token l → Spaces s → s ≠ [] → Token o →
      Text.allBlank r = true →
      FormOf (a ++ l ++ s ++ o ++ ' ' :: r) (.settled (.error (.here
        (.missingOperand (String.ofList (l ++ ' ' :: o ++ ' ' :: r))))))
  | dangling {a l s o : List Char} : Spaces a → Token l → Spaces s → s ≠ [] → Token o →
      FormOf (a ++ l ++ s ++ o) (.settled (.error (.here
        (.missingOperand (String.ofList (a ++ l ++ s ++ o))))))
  | unbalanced {cs : List Char} : (∀ s, ¬ TopLevel cs s) →
      FormOf cs (.settled (.error (.here (.unbalanced (String.ofList cs)))))

/-! ## Reading is the repetition of one step -/

theorem tokenForm_read (go : List Char → Except ParseError Expr) (cs : List Char) :
    (tokenForm cs).read go =
      match cs with
      | '!' :: operand => ((go operand).mapError (·.under .negation)).map .not
      | _ => .ok (.literal (String.ofList cs)) := by
  unfold tokenForm
  split <;> rfl

theorem parseAt_succ (n : Nat) (cs : List Char) :
    parseAt (n + 1) cs = (form cs).read (parseAt n) := by
  unfold parseAt form
  cases split cs with
  | empty => rfl
  | unbalanced => rfl
  | dangling => rfl
  | single token =>
    cases hb : Text.allBlank token with
    | true =>
      simp only [hb, if_true]
      rfl
    | false =>
      by_cases ht : token = cs
      · subst ht
        simp only [hb, ne_eq, not_true_eq_false, Bool.false_eq_true, if_false]
        exact (tokenForm_read _ _).symm
      · simp only [hb, ht, ne_eq, not_false_eq_true, Bool.false_eq_true, if_true, if_false]
        rfl
  | binary l o r =>
    cases hb : Text.allBlank r <;> simp only [hb] <;> rfl

/-! ## How a step can succeed -/

theorem joined_eq_ok {o : List Char} {left right : Except ParseError Expr} {e : Expr} :
    joined o left right = .ok e ↔
      ∃ join a b, Connects o join ∧ left = .ok a ∧ right = .ok b ∧ e = join a b := by
  constructor
  · intro h
    cases left with
    | error _ => cases h
    | ok a =>
      cases right with
      | error _ => cases h
      | ok b =>
        simp only [joined, Except.mapError, bind, Except.bind] at h
        split at h
        · exact ⟨.and, a, b, .and, rfl, rfl, (Except.ok.inj h).symm⟩
        · exact ⟨.or, a, b, .or, rfl, rfl, (Except.ok.inj h).symm⟩
        · cases h
  · rintro ⟨join, a, b, hop, rfl, rfl, rfl⟩
    cases hop <;> rfl

theorem negated_eq_ok {operand : Except ParseError Expr} {e : Expr} :
    (operand.mapError (·.under .negation)).map Expr.not = .ok e ↔
      ∃ a, operand = .ok a ∧ e = .not a := by
  cases operand with
  | error _ => simp [Except.mapError, Except.map]
  | ok a => simp [Except.mapError, Except.map, eq_comm]

/-- A step succeeds if the parts it leads to do, and the operator between them is one. -/
theorem Form.read_eq_ok {go : List Char → Except ParseError Expr} {f : Form} {e : Expr} :
    f.read go = .ok e ↔
      match f with
      | settled result => result = .ok e
      | inner token => go token = .ok e
      | negation operand => ∃ a, go operand = .ok a ∧ e = .not a
      | binary l o r =>
        ∃ join a b, Connects o join ∧ go l = .ok a ∧ go r = .ok b ∧ e = join a b := by
  cases f with
  | settled _ => rfl
  | inner _ => rfl
  | negation _ => exact negated_eq_ok
  | binary _ _ _ => exact joined_eq_ok

/-! ## How a step can fail -/

theorem joined_eq_error {o : List Char} {left right : Except ParseError Expr} {error : ParseError} :
    joined o left right = .error error ↔
      (∃ f, left = .error f ∧ error = f.under .left) ∨
        (∃ a f, left = .ok a ∧ right = .error f ∧ error = f.under .right) ∨
          ∃ a b, left = .ok a ∧ right = .ok b ∧ (∀ join, ¬ Connects o join) ∧
            error = .here (.invalidOperator (String.ofList o)) := by
  constructor
  · intro h
    cases left with
    | error f => exact .inl ⟨f, rfl, (Except.error.inj h).symm⟩
    | ok a =>
      cases right with
      | error f => exact .inr (.inl ⟨a, f, rfl, rfl, (Except.error.inj h).symm⟩)
      | ok b =>
        refine .inr (.inr ⟨a, b, rfl, rfl, fun join hop => ?_, ?_⟩)
        · cases hop <;> cases h
        · simp only [joined, Except.mapError, bind, Except.bind] at h
          split at h
          · cases h
          · cases h
          · exact (Except.error.inj h).symm
  · rintro (⟨f, rfl, rfl⟩ | ⟨a, f, rfl, rfl, rfl⟩ | ⟨a, b, rfl, rfl, hop, rfl⟩)
    · rfl
    · rfl
    · simp only [joined, Except.mapError, bind, Except.bind]
      split
      · exact absurd .and (hop _)
      · exact absurd .or (hop _)
      · rfl

theorem negated_eq_error {operand : Except ParseError Expr} {error : ParseError} :
    (operand.mapError (·.under .negation)).map Expr.not = .error error ↔
      ∃ f, operand = .error f ∧ error = f.under .negation := by
  cases operand with
  | error f => simp [Except.mapError, Except.map, eq_comm]
  | ok a => simp [Except.mapError, Except.map]

/-- A step fails if a part it leads to does, the left one first, or else if the operator between the
parts is none. -/
theorem Form.read_eq_error {go : List Char → Except ParseError Expr} {f : Form}
    {error : ParseError} :
    f.read go = .error error ↔
      match f with
      | settled result => result = .error error
      | inner token => go token = .error error
      | negation operand => ∃ f, go operand = .error f ∧ error = f.under .negation
      | binary l o r =>
        (∃ f, go l = .error f ∧ error = f.under .left) ∨
          (∃ a f, go l = .ok a ∧ go r = .error f ∧ error = f.under .right) ∨
            ∃ a b, go l = .ok a ∧ go r = .ok b ∧ (∀ join, ¬ Connects o join) ∧
              error = .here (.invalidOperator (String.ofList o)) := by
  cases f with
  | settled _ => rfl
  | inner _ => rfl
  | negation _ => exact negated_eq_error
  | binary _ _ _ => exact joined_eq_error

/-! ## The texts of each form -/

/-- A token that keeps all its characters is one that nothing encloses. -/
theorem not_wraps_of_unwrap_eq {token : List Char} (h : unwrap token = token) (inside : List Char) :
    ¬ Wraps token inside := by
  intro hw
  have := hw.length_eq
  rw [← unwrap_of_wraps hw, h] at this
  omega

theorem unwrap_negation (operand : List Char) : unwrap ('!' :: operand) = '!' :: operand :=
  unwrap_of_not_wraps fun _ h => absurd (List.cons.inj h.1).1 (by decide)

theorem allBlank_negation (operand : List Char) : Text.allBlank ('!' :: operand) = false := by
  simp [Text.allBlank, show Text.isBlank '!' = false from rfl]

theorem allBlank_append_of_left {a : List Char} (h : Text.allBlank a = false) (b : List Char) :
    Text.allBlank (a ++ b) = false := by
  rw [Text.allBlank, List.all_append, ← Text.allBlank, h, Bool.false_and]

/-- If the token inside the spaces is the whole text, then there are neither spaces nor enclosing
parentheses: the token would be shorter than the text. -/
theorem nil_of_unwrap_eq_append {a w b : List Char} (h : unwrap w = a ++ w ++ b) :
    a = [] ∧ b = [] := by
  have hlen := congrArg List.length h
  have hle := length_unwrap_le w
  simp only [List.length_append] at hlen
  constructor
  · exact List.length_eq_zero_iff.1 (by omega)
  · exact List.length_eq_zero_iff.1 (by omega)

theorem formOf_tokenForm {token : List Char} (h : Token token) (hb : Text.allBlank token = false)
    (hw : ∀ inside, ¬ Wraps token inside) : FormOf token (tokenForm token) := by
  unfold tokenForm
  split
  · exact .negation h
  · next hneg =>
    refine .atom ⟨h, hb, fun hh => ?_, hw⟩
    obtain ⟨operand, rfl⟩ := List.head?_eq_some_iff.1 hh
    exact hneg operand rfl

theorem formOf_form (cs : List Char) : FormOf cs (form cs) := by
  unfold form
  rcases split_cases cs with ht | ⟨hs, hno⟩
  · generalize split cs = s at ht
    cases ht with
    | empty ha => exact .blank ha
    | @single a w b ha hw hb =>
      simp only
      split
      · next hblank => exact .blankToken ha hw hb hblank
      · next hblank =>
        have hblank' : Text.allBlank (unwrap w) = false := by simpa using hblank
        split
        · next hne => exact .inner ha hw hb hblank' hne
        · next hne =>
          have heq : unwrap w = a ++ w ++ b := Classical.not_not.1 hne
          obtain ⟨rfl, rfl⟩ := nil_of_unwrap_eq_append heq
          rw [List.nil_append, List.append_nil] at heq ⊢
          rw [heq] at hblank' ⊢
          exact formOf_tokenForm hw hblank' (not_wraps_of_unwrap_eq heq)
    | binary r ha hl hs hne ho =>
      simp only
      split
      · next hblank => exact .blankRight ha hl hs hne ho hblank
      · next hblank => exact .binary ha hl hs hne ho (by simpa using hblank)
    | dangling ha hl hs hne ho => exact .dangling ha hl hs hne ho
  · rw [hs]
    exact .unbalanced hno

theorem Token.split_eq {cs : List Char} (h : Token cs) : split cs = .single (unwrap cs) := by
  simpa using split_of_topLevel (.single .nil h .nil)

theorem form_of_formOf {cs : List Char} {f : Form} (h : FormOf cs f) : form cs = f := by
  unfold form
  cases h with
  | blank ha => rw [split_of_topLevel (.empty ha)]
  | atom h =>
    rw [h.token.split_eq, unwrap_of_not_wraps h.not_wrapped]
    simp only [h.not_blank, Bool.false_eq_true, if_false, ne_eq, not_true_eq_false]
    unfold tokenForm
    split
    · exact absurd rfl h.not_negated
    · rfl
  | inner ha hw hb hblank hne =>
    rw [split_of_topLevel (.single ha hw hb)]
    simp only [hblank, Bool.false_eq_true, if_false, if_pos hne]
  | @negation operand h =>
    rw [h.split_eq, unwrap_negation]
    simp [allBlank_negation, tokenForm]
  | @binary _ _ _ _ r ha hl hs hne ho hblank =>
    rw [split_of_topLevel (.binary r ha hl hs hne ho)]
    simp only [hblank, Bool.false_eq_true, if_false]
  | blankToken ha hw hb hblank =>
    rw [split_of_topLevel (.single ha hw hb)]
    exact if_pos hblank
  | @blankRight _ _ _ _ r ha hl hs hne ho hblank =>
    rw [split_of_topLevel (.binary r ha hl hs hne ho)]
    exact if_pos hblank
  | dangling ha hl hs hne ho => rw [split_of_topLevel (.dangling ha hl hs hne ho)]
  | unbalanced hno =>
    rcases split_cases cs with ht | ⟨hs, -⟩
    · exact absurd ht (hno _)
    · rw [hs]

/-! ## More levels -/

theorem joined_of_not_tooDeep {o : List Char} {l r l' r' : Except ParseError Expr}
    (hl : ¬ TooDeep l → l' = l) (hr : ¬ TooDeep r → r' = r) (h : ¬ TooDeep (joined o l r)) :
    joined o l' r' = joined o l r := by
  have hl' : l' = l := hl fun ⟨path, hp⟩ => h ⟨.left :: path, by rw [hp]; rfl⟩
  subst hl'
  cases l' with
  | error _ => rfl
  | ok a =>
    have hr' : r' = r := hr fun ⟨path, hp⟩ => h ⟨.right :: path, by rw [hp]; rfl⟩
    rw [hr']

/-- A step that is not too deep gives the same answer when the parts are read with more levels. -/
theorem Form.read_of_not_tooDeep {go go' : List Char → Except ParseError Expr}
    (hgo : ∀ cs, ¬ TooDeep (go cs) → go' cs = go cs) {f : Form} (h : ¬ TooDeep (f.read go)) :
    f.read go' = f.read go := by
  cases f with
  | settled _ => rfl
  | inner token => exact hgo token h
  | negation operand =>
    have hop : go' operand = go operand :=
      hgo operand fun ⟨path, hp⟩ => h ⟨.negation :: path, by rw [read, hp]; rfl⟩
    rw [read, read, hop]
  | binary l o r => exact joined_of_not_tooDeep (hgo l) (hgo r) h

theorem parseAt_succ_of_not_tooDeep {n : Nat} {cs : List Char} (h : ¬ TooDeep (parseAt n cs)) :
    parseAt (n + 1) cs = parseAt n cs := by
  induction n generalizing cs with
  | zero => exact absurd ⟨[], rfl⟩ h
  | succ n ih =>
    rw [parseAt_succ n] at h ⊢
    rw [parseAt_succ]
    exact Form.read_of_not_tooDeep (fun cs hcs => ih hcs) h

/-- An answer that is not about depth does not change when more levels are allowed. -/
theorem parseAt_of_le {n m : Nat} {cs : List Char} (h : ¬ TooDeep (parseAt n cs)) (hle : n ≤ m) :
    parseAt m cs = parseAt n cs := by
  induction hle with
  | refl => rfl
  | step _ ih => rw [← ih] at h ⊢; exact parseAt_succ_of_not_tooDeep h

theorem parseAt_ok_of_le {n m : Nat} {cs : List Char} {e : Expr} (h : parseAt n cs = .ok e)
    (hle : n ≤ m) : parseAt m cs = .ok e := by
  rw [parseAt_of_le _ hle, h]
  rintro ⟨path, hp⟩
  rw [h] at hp
  cases hp

end LicenseAudit.Expr
