import LicenseAudit.Proofs.Expr.Levels
import LicenseAudit.Proofs.Expr.Operands

/-!
# Reading a rendering

A rendering has parentheses around every conjunction and disjunction. It is read as the expression
it was made from, provided that this expression could be read from some text: its literals are atoms
then, and an empty one is the whole expression or the operand of a negation. The parentheses are
dropped on a level of their own, so a rendering may be too deep although the text that was read is
not.

Results:
1. `Reads.operand`: the expressions of the grammar, apart from the empty name.
2. `Operand.token`, `Operand.reads`, `Operand.spends`: how a rendering looks, what it is read as,
   and the levels it takes.
3. `parse_render`: the parser returns a parsed expression from its rendering, or finds it too deep.
4. `parse_render_chain`: it does both, depending on the length of a chain of operators.
-/

namespace LicenseAudit.Expr

/-! ## Definitions -/

/-- The levels of the rendering of an expression: an operator takes one for itself and one for its
parentheses. -/
def renderLevels : Expr → Nat
  | literal _ => 0
  | not e => 1 + renderLevels e
  | and l r => 2 + max (renderLevels l) (renderLevels r)
  | or l r => 2 + max (renderLevels l) (renderLevels r)

/-- The expressions that a text that is not blank can stand for. -/
inductive Operand : Expr → Prop
  | name {cs : List Char} : Atom cs → Operand (.literal (String.ofList cs))
  | bare : Operand (.not (.literal ""))
  | not {e : Expr} : Operand e → Operand (.not e)
  | join {o : List Char} {join : Expr → Expr → Expr} {l r : Expr} : Connects o join → Operand l →
      Operand r → Operand (join l r)

/-- Two operands with their operator, as a rendering has them inside parentheses. -/
def between (o l r : List Char) : List Char := l ++ [' '] ++ o ++ ' ' :: r

/-! ## Expressions of the grammar -/

theorem not_outerSpace_nil : ¬ OuterSpace [] := fun h => absurd h.mem List.not_mem_nil

/-- What was read is the empty name, and then the text has only spaces, or it is an operand. -/
theorem Reads.operand {cs : List Char} {e : Expr} (h : Reads cs e) :
    (e = .literal "" ∧ Spaces cs) ∨ Operand e := by
  induction h with
  | atom hblank hb hs hneg hw => exact .inr (.name (atom_iff.2 ⟨hblank, hb, hs, hneg, hw⟩))
  | empty => exact .inl ⟨rfl, .nil⟩
  | not _ _ ih =>
    rcases ih with ⟨rfl, -⟩ | he
    · exact .inr .bare
    · exact .inr (.not he)
  | binary _ hne hs _ _ hop _ hblank ihl ihr =>
    rcases ihl with ⟨-, hspaces⟩ | hl
    · exact absurd (hspaces.eq_nil hs) hne
    · rcases ihr with ⟨-, hspaces⟩ | hr
      · exact absurd hspaces (not_spaces_of_not_blank hblank)
      · exact .inr (.join hop hl hr)
  | paren _ hblank ih =>
    rcases ih with ⟨-, hspaces⟩ | he
    · exact absurd hspaces (not_spaces_of_not_blank hblank)
    · exact .inr he
  | pad _ ha hb ih =>
    rcases ih with ⟨he, hspaces⟩ | he
    · exact .inl ⟨he, (ha.append hspaces).append hb⟩
    · exact .inr he

/-! ## How a rendering looks -/

theorem toList_render_not (e : Expr) : (render (.not e)).toList = '!' :: (render e).toList := by
  simp [render]

theorem Connects.toList_render {o : List Char} {join : Expr → Expr → Expr} (h : Connects o join)
    (l r : Expr) : (render (join l r)).toList =
      '(' :: (between o (render l).toList (render r).toList ++ [')']) := by
  cases h <;> simp [render, between]

theorem Connects.renderLevels_eq {o : List Char} {join : Expr → Expr → Expr} (h : Connects o join)
    (l r : Expr) : (join l r).renderLevels = max l.renderLevels r.renderLevels + 1 + 1 := by
  cases h <;> exact Nat.add_comm 2 _

theorem Connects.balanced_between {o l r : List Char} {join : Expr → Expr → Expr}
    (h : Connects o join) (hl : Balanced l) (hr : Balanced r) : Balanced (between o l r) :=
  ((hl.append balanced_space).append h.token.balanced).append (balanced_space.append hr)

theorem Operand.token {e : Expr} (h : Operand e) : Token (render e).toList := by
  induction h with
  | name ha =>
    rw [render, String.toList_ofList]
    exact ha.token
  | bare => exact token_negation_iff.2 ⟨.nil, not_outerSpace_nil⟩
  | not _ ih =>
    rw [toList_render_not]
    exact token_negation_iff.2 ⟨ih.balanced, ih.no_outerSpace⟩
  | join hop _ _ ihl ihr =>
    rw [hop.toList_render]
    exact (hop.balanced_between ihl.balanced ihr.balanced).token_wrap

theorem Operand.not_blank {e : Expr} (h : Operand e) : Text.allBlank (render e).toList = false := by
  cases h with
  | name ha =>
    rw [render, String.toList_ofList]
    exact ha.not_blank
  | bare => rfl
  | not _ =>
    rw [toList_render_not]
    exact allBlank_negation _
  | join hop _ _ =>
    rw [hop.toList_render]
    rfl

theorem allBlank_between {l : List Char} (h : Text.allBlank l = false) (o r : List Char) :
    Text.allBlank (between o l r) = false := by
  unfold between
  rw [List.append_assoc, List.append_assoc]
  exact allBlank_append_of_left h _

/-! ## What a rendering is read as -/

theorem Connects.reads_between {o l r : List Char} {join : Expr → Expr → Expr} {a b : Expr}
    (h : Connects o join) (ht : Token l) (hl : Reads l a) (hr : Reads r b)
    (hblank : Text.allBlank r = false) : Reads (between o l r) (join a b) :=
  .binary hl ht.ne_nil ht.no_outerSpace .single (List.cons_ne_nil _ _) h hr hblank

theorem Operand.reads {e : Expr} (h : Operand e) : Reads (render e).toList e := by
  induction h with
  | name ha =>
    rw [render, String.toList_ofList]
    exact reads_of_atom ha
  | bare => exact .not .empty not_outerSpace_nil
  | not he ih =>
    rw [toList_render_not]
    exact .not ih he.token.no_outerSpace
  | join hop hl hr ihl ihr =>
    rw [hop.toList_render]
    have hbetween := hop.reads_between hl.token ihl ihr hr.not_blank
    exact .paren hbetween (allBlank_between hl.not_blank _ _)

theorem Connects.spends_between {o l r : List Char} {join : Expr → Expr → Expr} {n m n' m' : Nat}
    (h : Connects o join) (ht : Token l) (hl : Spends l n m) (hr : Spends r n' m')
    (hblank : Text.allBlank r = false) : Spends (between o l r) (max n n' + 1) (max m m' + 1) :=
  Spends.binary (a := []) .nil ht hl .single (List.cons_ne_nil _ _) h hr hblank

/-- No space of a rendering is dropped, so the levels that are spent on it are those it has. -/
theorem Operand.spends {e : Expr} (h : Operand e) :
    Spends (render e).toList e.renderLevels e.renderLevels := by
  induction h with
  | name ha =>
    rw [render, String.toList_ofList]
    exact .atom ha
  | bare => exact .not Operand.bare.token (.blank .nil)
  | not he ih =>
    rw [toList_render_not, renderLevels, Nat.add_comm]
    exact .not (token_negation_iff.2 ⟨he.token.balanced, he.token.no_outerSpace⟩) ih
  | join hop hl hr ihl ihr =>
    rw [hop.toList_render, hop.renderLevels_eq]
    have hbetween := hop.spends_between hl.token ihl ihr hr.not_blank
    have hbalanced := hop.balanced_between hl.token.balanced hr.token.balanced
    have hwrapped := Spends.paren .nil hbalanced (allBlank_between hl.not_blank _ _) hbetween .nil
    simpa using hwrapped

/-- The rendering of an expression that was read is a text for it, on the levels it has. -/
theorem Reads.render {cs : List Char} {e : Expr} (h : Reads cs e) :
    Reads (Expr.render e).toList e ∧
      Spends (Expr.render e).toList e.renderLevels e.renderLevels := by
  rcases h.operand with ⟨rfl, -⟩ | he
  · exact ⟨.empty, .blank .nil⟩
  · exact ⟨he.reads, he.spends⟩

/-! ## The parser -/

theorem parse_eq_ok_of_needs {text : String} {e : Expr} {m : Nat} (hr : Reads text.toList e)
    (hn : Needs text.toList m) (hm : m ≤ maxDepth) : parse text = .ok e := by
  obtain ⟨e', he'⟩ := hn.ok_of_lt _ (Nat.lt_succ_of_le hm)
  obtain rfl := hr.unique (reads_of_parseAt he')
  exact he'

/-- The rendering of a parsed expression is read as this expression if its levels are allowed, and
else it is too deep. In both cases no other parsed expression has this rendering. -/
theorem parse_render {text : String} {e : Expr} (h : parse text = .ok e) :
    (e.renderLevels ≤ maxDepth → parse e.render = .ok e) ∧
      (maxDepth < e.renderLevels → TooDeep (parse e.render)) ∧
      ∀ text' e', parse text' = .ok e' → e.render = e'.render → e = e' := by
  obtain ⟨hreads, hspends⟩ := (reads_of_parseAt h).render
  refine ⟨parse_eq_ok_of_needs hreads hspends.needs, fun hdeep => ?_, fun text' e' h' heq => ?_⟩
  · exact hspends.needs.deep_of_le _ hdeep
  · have hreads' := (reads_of_parseAt h').render.1
    rw [← heq] at hreads'
    exact hreads.unique hreads'

/-! ## Chains of operators -/

/-- A name with parentheses of its own, and a space inside them. -/
def oddName : List Char := "(a b)(c)".toList

/-- The expression of `k` operators, each of which joins the odd name to the rest. -/
def chain : Nat → Expr
  | 0 => .literal (String.ofList oddName)
  | k + 1 => .and (.literal (String.ofList oddName)) (chain k)

/-- The text of a chain without parentheses around its operators. -/
def chainText : Nat → List Char
  | 0 => oddName
  | k + 1 => between ['&', '&'] oddName (chainText k)

theorem takeToken_oddName : takeToken 0 oddName = some (oddName, none) := rfl

theorem atom_oddName : Atom oddName where
  token := (token_of_takeToken_none (by decide) takeToken_oddName).2
  not_blank := rfl
  not_negated := by decide
  not_wrapped := not_wraps_of_unwrap_eq rfl

theorem chainText_spec (k : Nat) :
    Reads (chainText k) (chain k) ∧ Spends (chainText k) k k ∧
      Text.allBlank (chainText k) = false := by
  have ha := atom_oddName
  induction k with
  | zero => exact ⟨reads_of_atom ha, .atom ha, ha.not_blank⟩
  | succ k ih =>
    obtain ⟨hreads, hspends, hblank⟩ := ih
    have hreads' := Connects.and.reads_between ha.token (reads_of_atom ha) hreads hblank
    have hspends' := Connects.and.spends_between ha.token (.atom ha) hspends hblank
    rw [Nat.zero_max] at hspends'
    exact ⟨hreads', hspends', allBlank_between ha.not_blank _ _⟩

theorem parse_chain {k : Nat} (h : k ≤ maxDepth) :
    parse (String.ofList (chainText k)) = .ok (chain k) := by
  obtain ⟨hreads, hspends, -⟩ := chainText_spec k
  refine parse_eq_ok_of_needs ?_ ?_ h
  · rwa [String.toList_ofList]
  · rw [String.toList_ofList]
    exact hspends.needs

/-- The last name of a chain lies below all its operators. -/
theorem at?_chain (k : Nat) :
    at? (List.replicate k .right) (chain k) = some (.literal (String.ofList oddName)) := by
  induction k with
  | zero => rfl
  | succ k ih => exact ih

theorem renderLevels_chain (k : Nat) : (chain k).renderLevels = 2 * k := by
  induction k with
  | zero => rfl
  | succ k ih =>
    rw [chain, renderLevels, ih, renderLevels, Nat.zero_max]
    omega

/-- The rendering of a chain of 128 operators has the 256 levels there are, and one operator more
makes it too deep. -/
theorem parse_render_chain :
    parse (String.ofList (chainText 128)) = .ok (chain 128) ∧
      parse (chain 128).render = .ok (chain 128) ∧
      parse (String.ofList (chainText 129)) = .ok (chain 129) ∧
      TooDeep (parse (chain 129).render) := by
  have hshort := parse_chain (k := 128) (by decide)
  have hlong := parse_chain (k := 129) (by decide)
  refine ⟨hshort, (parse_render hshort).1 ?_, hlong, (parse_render hlong).2.1 ?_⟩
  · rw [renderLevels_chain]
    decide
  · rw [renderLevels_chain]
    decide

end LicenseAudit.Expr
