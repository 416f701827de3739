import LicenseAudit.Proofs.Expr.Form

/-!
# Where an error is

The path of an error leads from the whole text to a part of it. A step of the path starts at the bare
text: spaces around one token and parentheses that enclose all of it add no step, although the parser
spends levels on them. At the end of the path stands a part that fails on its own, in the same way.
The order in which the parser tries things decides which of several faults it reports: a left operand
comes before the right one, and an operator after both.

Results:
1. `Sheds.unique`, `Bare.unique`, `Leads.unique`: a path leads to one part of a text at most.
2. `exists_bare_of_error`: every step of the parser that fails starts at the bare text.
3. `leads_of_parseAt`: along a beginning of its path, an error leads to a part with the rest of it.
4. `parse_points_at`: an error that is not about depth points at the part that is wrong.
-/

namespace LicenseAudit.Expr

/-! ## Definitions -/

/-- What one token sheds: the spaces around it, or the parentheses that enclose all of it. -/
inductive Sheds : List Char → List Char → Prop
  | spaces {a w b : List Char} : Spaces a → Token w → Spaces b → a ++ b ≠ [] → Sheds (a ++ w ++ b) w
  | parentheses {w : List Char} : Balanced w → Sheds ('(' :: (w ++ [')'])) w

/-- `Bare cs t`: `t` is what is left of the text when it has shed all that it can. -/
inductive Bare : List Char → List Char → Prop
  | done {cs : List Char} : (∀ t, ¬ Sheds cs t) → Bare cs cs
  | shed {cs t u : List Char} : Sheds cs t → Bare t u → Bare cs u

/-- `Leads cs path place`: the path leads from the text to this part of it. A step to the left goes
to the first token, a step to the right to all that follows the space behind the second one, and a
step into a negation to what follows the `!`. -/
inductive Leads : List Char → List Step → List Char → Prop
  | here {cs : List Char} : Leads cs [] cs
  | left {cs t l o r place : List Char} {path : List Step} : Bare cs t →
      TopLevel t (.binary l o r) → Leads l path place → Leads cs (.left :: path) place
  | right {cs t l o r place : List Char} {path : List Step} : Bare cs t →
      TopLevel t (.binary l o r) → Leads r path place → Leads cs (.right :: path) place
  | negation {cs operand place : List Char} {path : List Step} : Bare cs ('!' :: operand) →
      Token ('!' :: operand) → Leads operand path place → Leads cs (.negation :: path) place

/-- The error points at this part of the text.

* `leads`, `only`: it is the part that the path of the error leads to.
* `refused`: read on its own, the part has the same fault, and no operand of it is to blame.
* `left_read`: where the path goes to the right, the left operand can be read.
* `operator`: if the fault is an operator, it is the second token of the bare part, it is none of the
  two that there are, and both operands can be read. -/
structure PointsAt (text : String) (e : ParseError) (place : List Char) : Prop where
  leads : Leads text.toList e.path place
  only : ∀ other, Leads text.toList e.path other → other = place
  refused : parse (String.ofList place) = .error (.here e.fault)
  left_read : ∀ before after, e.path = before ++ .right :: after →
    ∃ cs t l o r left, Leads text.toList before cs ∧ Bare cs t ∧ TopLevel t (.binary l o r) ∧
      parse (String.ofList l) = .ok left
  operator : ∀ op, e.fault = .invalidOperator op → op ≠ "&&" ∧ op ≠ "||" ∧
    ∃ t l r left right, Bare place t ∧ TopLevel t (.binary l op.toList r) ∧
      parse (String.ofList l) = .ok left ∧ parse (String.ofList r) = .ok right

/-! ## One part at most -/

theorem Token.exists_takeToken {w b : List Char} (hw : Token w) (hb : Spaces b) :
    ∃ rest, takeToken 0 (w ++ b) = some (w, rest) := by
  by_cases hne : b = []
  · rw [hne, List.append_nil]
    exact ⟨none, hw.takeToken_eq⟩
  · obtain ⟨b, rfl, -⟩ := hb.exists_cons hne
    exact ⟨some b, hw.takeToken_append b⟩

/-- There is one way only to see a text as a token between spaces. -/
theorem Token.unique {a w b a' w' b' : List Char} (ha : Spaces a) (hw : Token w) (hb : Spaces b)
    (ha' : Spaces a') (hw' : Token w') (hb' : Spaces b') (h : a ++ w ++ b = a' ++ w' ++ b') :
    w = w' := by
  have hstart : w ++ b = w' ++ b' := by
    have := congrArg dropSpaces h
    rwa [List.append_assoc, List.append_assoc, Expr.dropSpaces_append ha,
      Expr.dropSpaces_append ha', hw.dropSpaces_append, hw'.dropSpaces_append] at this
  obtain ⟨rest, htake⟩ := hw.exists_takeToken hb
  obtain ⟨rest', htake'⟩ := hw'.exists_takeToken hb'
  rw [hstart, htake'] at htake
  exact (Prod.mk.inj (Option.some.inj htake)).1.symm

/-- A token has no spaces around it to shed. -/
theorem Token.wraps_of_sheds {cs t : List Char} (hcs : Token cs) (h : Sheds cs t) : Wraps cs t := by
  generalize hcs' : cs = text at h
  cases h with
  | spaces ha hw hb hne =>
    have heq : cs = t :=
      Token.unique .nil hcs .nil ha hw hb (by rwa [List.nil_append, List.append_nil])
    have hlen := congrArg List.length hcs'
    simp only [heq, List.length_append] at hlen
    exact absurd (List.length_eq_zero_iff.1 (by rw [List.length_append]; omega)) hne
  | parentheses hb => exact ⟨rfl, hb⟩

theorem Sheds.unique {cs t u : List Char} (ht : Sheds cs t) (hu : Sheds cs u) : t = u := by
  have wraps_unique : ∀ {w v v' : List Char}, Wraps w v → Wraps w v' → v = v' := fun hv hv' =>
    (unwrap_of_wraps hv).symm.trans (unwrap_of_wraps hv')
  cases ht with
  | @spaces a w b ha hw hb hne =>
    generalize hcs : a ++ t ++ b = cs at hu
    cases hu with
    | spaces ha' hw' hb' _ => exact Token.unique ha hw hb ha' hw' hb' hcs
    | parentheses hbal =>
      have := (hcs ▸ hbal.token_wrap).wraps_of_sheds (.spaces ha hw hb hne)
      exact wraps_unique this (hcs ▸ ⟨rfl, hbal⟩)
  | parentheses hbal =>
    exact wraps_unique ⟨rfl, hbal⟩ (hbal.token_wrap.wraps_of_sheds hu)

theorem Bare.unique {cs t u : List Char} (ht : Bare cs t) (hu : Bare cs u) : t = u := by
  induction ht with
  | done hno =>
    cases hu with
    | done => rfl
    | shed hs => exact absurd hs (hno _)
  | shed hs _ ih =>
    cases hu with
    | done hno => exact absurd hs (hno _)
    | shed hs' hu => exact ih (hs.unique hs' ▸ hu)

theorem TopLevel.unique {cs : List Char} {s s' : Split} (h : TopLevel cs s) (h' : TopLevel cs s') :
    s = s' :=
  (split_of_topLevel h).symm.trans (split_of_topLevel h')

theorem Leads.unique {cs place other : List Char} {path : List Step} (h : Leads cs path place)
    (h' : Leads cs path other) : other = place := by
  induction h with
  | here =>
    cases h'
    rfl
  | left hbare htop _ ih =>
    cases h' with
    | left hbare' htop' h' =>
      obtain rfl := hbare.unique hbare'
      cases htop.unique htop'
      exact ih h'
  | right hbare htop _ ih =>
    cases h' with
    | right hbare' htop' h' =>
      obtain rfl := hbare.unique hbare'
      cases htop.unique htop'
      exact ih h'
  | negation hbare _ _ ih =>
    cases h' with
    | negation hbare' _ h' =>
      cases hbare.unique hbare'
      exact ih h'

/-! ## The parser starts at the bare text -/

/-- A text that sheds something is one token. -/
theorem Sheds.topLevel {cs t : List Char} (h : Sheds cs t) : ∃ w, TopLevel cs (.single w) := by
  cases h with
  | spaces ha hw hb _ => exact ⟨_, .single ha hw hb⟩
  | parentheses hb => exact ⟨_, by simpa using TopLevel.single .nil hb.token_wrap .nil⟩

theorem bare_of_binary {cs l o r : List Char} (h : TopLevel cs (.binary l o r)) : Bare cs cs := by
  refine .done fun t hs => ?_
  obtain ⟨w, hw⟩ := hs.topLevel
  cases h.unique hw

theorem bare_of_negation {operand : List Char} (h : Token ('!' :: operand)) :
    Bare ('!' :: operand) ('!' :: operand) :=
  .done fun _ hs => absurd (List.cons.inj (h.wraps_of_sheds hs).1).1 (by decide)

/-- What the parser goes on with is what the text sheds in one step or in two. -/
theorem Bare.of_unwrap {a w b t : List Char} (ha : Spaces a) (hw : Token w) (hb : Spaces b)
    (h : Bare (unwrap w) t) : Bare (a ++ w ++ b) t := by
  have hbare : Bare w t := by
    rcases unwrap_cases w with ⟨heq, hbal⟩ | ⟨-, heq⟩
    · rw [heq]
      exact .shed (.parentheses hbal) h
    · rwa [heq] at h
  by_cases hne : a ++ b = []
  · obtain ⟨rfl, rfl⟩ := List.append_eq_nil_iff.1 hne
    rwa [List.nil_append, List.append_nil]
  · exact .shed (.spaces ha hw hb hne) hbare

/-- An error is that of the text as a whole, or it comes up where the bare text is a negation or an
operator with its operands. -/
theorem exists_bare_of_error {n : Nat} {cs : List Char} {e : ParseError}
    (h : parseAt n cs = .error e)
    (hstep : ∀ fault, e = .here fault → ∃ op, fault = .invalidOperator op) :
    ∃ t m, m ≤ n ∧ Bare cs t ∧
      ((∃ operand f, t = '!' :: operand ∧ Token ('!' :: operand) ∧
          parseAt m operand = .error f ∧ e = f.under .negation) ∨
        ∃ l o r, TopLevel t (.binary l o r) ∧ joined o (parseAt m l) (parseAt m r) = .error e) := by
  induction n generalizing cs with
  | zero =>
    obtain ⟨op, hop⟩ := hstep _ (Except.error.inj h).symm
    cases hop
  | succ n ih =>
    rw [parseAt_succ] at h
    have hf := formOf_form cs
    generalize form cs = f at h hf
    cases hf with
    | blank | atom => cases h
    | blankToken | blankRight | dangling | unbalanced =>
      obtain ⟨op, hop⟩ := hstep _ (Except.error.inj h).symm
      cases hop
    | inner ha hw hb =>
      obtain ⟨t, m, hm, hbare, hcase⟩ := ih h
      exact ⟨t, m, Nat.le_succ_of_le hm, hbare.of_unwrap ha hw hb, hcase⟩
    | negation ht =>
      obtain ⟨f, hop, rfl⟩ := negated_eq_error.1 h
      exact ⟨_, n, Nat.le_succ n, bare_of_negation ht, .inl ⟨_, f, rfl, ht, hop, rfl⟩⟩
    | @binary _ _ _ _ r ha hl hs hne ho _ =>
      have htop := TopLevel.binary r ha hl hs hne ho
      exact ⟨_, n, Nat.le_succ n, bare_of_binary htop, .inr ⟨_, _, _, htop, h⟩⟩

/-! ## Along the path -/

theorem leads_of_parseAt {n : Nat} {cs : List Char} {before after : List Step} {fault : ParseFault}
    (h : parseAt n cs = .error ⟨before ++ after, fault⟩) :
    ∃ place m, m ≤ n ∧ Leads cs before place ∧ parseAt m place = .error ⟨after, fault⟩ := by
  induction before generalizing n cs with
  | nil => exact ⟨cs, n, Nat.le_refl n, .here, h⟩
  | cons s before ih =>
    obtain ⟨t, m, hm, hbare, hcase⟩ := exists_bare_of_error h fun _ heq => nomatch heq
    obtain ⟨operand, ⟨p, f⟩, rfl, htok, hop, heq⟩ | ⟨l, o, r, htop, hjoin⟩ := hcase
    · cases heq
      obtain ⟨place, k, hk, hlead, hplace⟩ := ih hop
      exact ⟨place, k, hk.trans hm, .negation hbare htok hlead, hplace⟩
    · obtain ⟨⟨p, f⟩, hl, heq⟩ | ⟨_, ⟨p, f⟩, -, hr, heq⟩ | ⟨_, _, -, -, -, heq⟩ :=
        joined_eq_error.1 hjoin
      · cases heq
        obtain ⟨place, k, hk, hlead, hplace⟩ := ih hl
        exact ⟨place, k, hk.trans hm, .left hbare htop hlead, hplace⟩
      · cases heq
        obtain ⟨place, k, hk, hlead, hplace⟩ := ih hr
        exact ⟨place, k, hk.trans hm, .right hbare htop hlead, hplace⟩
      · cases heq

/-- Where an error is in the right operand, the left one can be read. -/
theorem left_of_parseAt {n : Nat} {cs : List Char} {after : List Step} {fault : ParseFault}
    (h : parseAt n cs = .error ⟨.right :: after, fault⟩) :
    ∃ t l o r m left, m ≤ n ∧ Bare cs t ∧ TopLevel t (.binary l o r) ∧
      parseAt m l = .ok left := by
  obtain ⟨t, m, hm, hbare, hcase⟩ := exists_bare_of_error h fun _ heq => nomatch heq
  obtain ⟨_, _, -, -, -, heq⟩ | ⟨l, o, r, htop, hjoin⟩ := hcase
  · cases heq
  · obtain ⟨_, -, heq⟩ | ⟨left, _, hl, -, -⟩ | ⟨_, _, -, -, -, heq⟩ := joined_eq_error.1 hjoin
    · cases heq
    · exact ⟨t, l, o, r, m, left, hm, hbare, htop, hl⟩
    · cases heq

/-- Where an operator is wrong, both its operands can be read. -/
theorem operands_of_parseAt {n : Nat} {cs : List Char} {op : String}
    (h : parseAt n cs = .error (.here (.invalidOperator op))) :
    (∀ join, ¬ Connects op.toList join) ∧ ∃ t l r m left right, m ≤ n ∧ Bare cs t ∧
      TopLevel t (.binary l op.toList r) ∧ parseAt m l = .ok left ∧ parseAt m r = .ok right := by
  obtain ⟨t, m, hm, hbare, hcase⟩ :=
    exists_bare_of_error h fun _ heq => ⟨op, (congrArg Located.fault heq).symm⟩
  obtain ⟨_, _, -, -, -, heq⟩ | ⟨l, o, r, htop, hjoin⟩ := hcase
  · cases heq
  · obtain ⟨_, -, heq⟩ | ⟨_, _, -, -, heq⟩ | ⟨left, right, hl, hr, hop, heq⟩ :=
      joined_eq_error.1 hjoin
    · cases heq
    · cases heq
    · cases heq
      rw [String.toList_ofList]
      exact ⟨hop, t, l, r, m, left, right, hm, hbare, htop, hl, hr⟩

/-! ## The parser -/

theorem parse_ofList_of_le {m : Nat} {cs : List Char} {e : Expr} (h : parseAt m cs = .ok e)
    (hm : m ≤ maxDepth + 1) : parse (String.ofList cs) = .ok e := by
  rw [parse, String.toList_ofList]
  exact parseAt_ok_of_le h hm

/-- An error that is not about depth points at a part of the text, and there is only one that it
leads to. -/
theorem parse_points_at {text : String} {e : ParseError} (h : parse text = .error e)
    (hdeep : ∀ limit, e.fault ≠ .tooDeep limit) : ∃ place, PointsAt text e place := by
  obtain ⟨path, fault⟩ := e
  have hwhole : parseAt (maxDepth + 1) text.toList = .error ⟨path ++ [], fault⟩ := by
    rw [List.append_nil]
    exact h
  obtain ⟨place, m, hm, hleads, hplace⟩ := leads_of_parseAt hwhole
  refine ⟨place, hleads, fun other => hleads.unique, ?_, fun before after hpath => ?_,
    fun op hop => ?_⟩
  · -- The part may be read with more levels than it had inside the text.
    have hfew : ¬ TooDeep (parseAt m place) := by
      rintro ⟨p, hp⟩
      rw [hplace] at hp
      exact hdeep maxDepth (congrArg Located.fault (Except.error.inj hp))
    rw [parse, String.toList_ofList, parseAt_of_le hfew hm, hplace]
    rfl
  · obtain rfl : path = before ++ .right :: after := hpath
    obtain ⟨cs, k, hk, hbefore, hcs⟩ := leads_of_parseAt h
    obtain ⟨t, l, o, r, j, left, hj, hbare, htop, hl⟩ := left_of_parseAt hcs
    exact ⟨cs, t, l, o, r, left, hbefore, hbare, htop, parse_ofList_of_le hl (hj.trans hk)⟩
  · obtain rfl : fault = .invalidOperator op := hop
    obtain ⟨hno, t, l, r, j, left, right, hj, hbare, htop, hl, hr⟩ := operands_of_parseAt hplace
    refine ⟨?_, ?_, t, l, r, left, right, hbare, htop, parse_ofList_of_le hl (hj.trans hm),
      parse_ofList_of_le hr (hj.trans hm)⟩
    · rintro rfl
      exact hno _ .and
    · rintro rfl
      exact hno _ .or

theorem parse_points_at_nested :
    parse "MIT && (!( ISC ^^ BSD ) || GPL)" =
        .error ⟨[.right, .left, .negation], .invalidOperator "^^"⟩ ∧
      ∃ place, PointsAt "MIT && (!( ISC ^^ BSD ) || GPL)"
        ⟨[.right, .left, .negation], .invalidOperator "^^"⟩ place := by
  have hparse : parse "MIT && (!( ISC ^^ BSD ) || GPL)" =
      .error ⟨[.right, .left, .negation], .invalidOperator "^^"⟩ := rfl
  exact ⟨hparse, parse_points_at hparse fun _ h => nomatch h⟩

end LicenseAudit.Expr
