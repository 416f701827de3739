import LicenseAudit.Proofs.Expr.Parentheses
import Mathlib.Data.List.TakeWhile

/-!
# The cut at the first two tokens

`TopLevel cs s` says how a text has to look for `s` to be its cut: spaces around one token, two
tokens with a right operand behind them, or two tokens and nothing behind. The scan by characters
finds this cut, and no text has two of them.

Results:
1. `takeToken_eq_some_none`, `takeToken_eq_some_some`: what one run of the scan returns.
2. `split_cases`, `split_of_topLevel`, `split_eq_iff`: the cut and the relation are the same.
3. `unwrap_cases`: a token loses the pair of parentheses that encloses all of it, or nothing.
-/

namespace LicenseAudit.Expr

/-! ## Definitions -/

/-- How a text looks at its top level. -/
inductive TopLevel : List Char → Split → Prop
  | empty {a : List Char} : Spaces a → TopLevel a .empty
  | single {a w b : List Char} : Spaces a → Token w → Spaces b →
      TopLevel (a ++ w ++ b) (.single (unwrap w))
  | binary {a l s o : List Char} (r : List Char) : Spaces a → Token l → Spaces s → s ≠ [] →
      Token o → TopLevel (a ++ l ++ s ++ o ++ ' ' :: r) (.binary l o r)
  | dangling {a l s o : List Char} : Spaces a → Token l → Spaces s → s ≠ [] → Token o →
      TopLevel (a ++ l ++ s ++ o) .dangling

/-- The token is enclosed by a pair of parentheses, with `inside` between them. -/
def Wraps (token inside : List Char) : Prop :=
  token = '(' :: (inside ++ [')']) ∧ Balanced inside

/-! ## One run of the scan -/

theorem takeToken_cons (depth : Nat) (c : Char) (cs : List Char) :
    takeToken depth (c :: cs) =
      if c = ' ' ∧ depth = 0 then some ([], some cs)
      else (nesting depth [c]).bind fun k => (takeToken k cs).map fun t => (c :: t.1, t.2) := by
  by_cases hs : c = ' ' ∧ depth = 0
  · simp [takeToken, hs]
  · by_cases ho : c = '('
    · simp [takeToken, nesting, ho]
    · by_cases hc : c = ')'
      · subst hc
        cases depth <;> simp [takeToken, nesting]
      · simp [takeToken, nesting, hs, ho, hc]

/-- The scan reaches the end exactly if all parentheses are closed there and no space stood
outside. -/
theorem takeToken_eq_some_none {depth : Nat} {cs token : List Char} :
    takeToken depth cs = some (token, none) ↔
      token = cs ∧ nesting depth cs = some 0 ∧ ¬ SpacedAt depth cs := by
  induction cs generalizing depth token with
  | nil => simp [takeToken, nesting, not_spacedAt_nil, eq_comm, and_comm]
  | cons c cs ih =>
    rw [takeToken_cons, nesting_cons depth c cs]
    by_cases hs : c = ' ' ∧ depth = 0
    · simp [hs, spacedAt_cons]
    · rw [if_neg hs, Option.bind_eq_some_iff, Option.bind_eq_some_iff]
      constructor
      · rintro ⟨k, hk, hmap⟩
        obtain ⟨⟨t, r⟩, ht, heq⟩ := Option.map_eq_some_iff.1 hmap
        obtain ⟨rfl, rfl⟩ := Prod.mk.inj heq
        obtain ⟨rfl, hn, hsp⟩ := ih.1 ht
        exact ⟨rfl, ⟨k, hk, hn⟩, mt (spacedAt_cons_of_nesting hs hk).1 hsp⟩
      · rintro ⟨rfl, ⟨k, hk, hn⟩, hsp⟩
        have ht : takeToken k cs = some (cs, none) :=
          ih.2 ⟨rfl, hn, mt (spacedAt_cons_of_nesting hs hk).2 hsp⟩
        exact ⟨k, hk, by rw [ht]; rfl⟩

/-- The scan stops at the first space outside parentheses. -/
theorem takeToken_eq_some_some {depth : Nat} {cs token rest : List Char} :
    takeToken depth cs = some (token, some rest) ↔
      cs = token ++ ' ' :: rest ∧ nesting depth token = some 0 ∧ ¬ SpacedAt depth token := by
  induction cs generalizing depth token with
  | nil => simp [takeToken]
  | cons c cs ih =>
    rw [takeToken_cons]
    by_cases hs : c = ' ' ∧ depth = 0
    · obtain ⟨rfl, rfl⟩ := hs
      rw [if_pos ⟨rfl, rfl⟩]
      constructor
      · intro h
        obtain ⟨rfl, hrest⟩ := Prod.mk.inj (Option.some.inj h)
        obtain rfl := Option.some.inj hrest
        exact ⟨rfl, rfl, not_spacedAt_nil 0⟩
      · rintro ⟨h, -, hsp⟩
        cases token with
        | nil =>
          obtain ⟨-, rfl⟩ := List.cons.inj h
          rfl
        | cons d token =>
          obtain ⟨rfl, -⟩ := List.cons.inj h
          exact absurd (spacedAt_cons.2 (.inl ⟨rfl, rfl⟩)) hsp
    · rw [if_neg hs, Option.bind_eq_some_iff]
      constructor
      · rintro ⟨k, hk, hmap⟩
        obtain ⟨⟨t, r⟩, ht, heq⟩ := Option.map_eq_some_iff.1 hmap
        obtain ⟨rfl, rfl⟩ := Prod.mk.inj heq
        obtain ⟨rfl, hn, hsp⟩ := ih.1 ht
        refine ⟨rfl, ?_, mt (spacedAt_cons_of_nesting hs hk).1 hsp⟩
        rw [nesting_cons, hk, Option.bind_some, hn]
      · rintro ⟨h, hn, hsp⟩
        cases token with
        | nil =>
          -- An empty token would put the space in front.
          obtain ⟨rfl, -⟩ := List.cons.inj h
          exact absurd ⟨rfl, by simpa [nesting] using hn⟩ hs
        | cons d token =>
          obtain ⟨rfl, hcs⟩ := List.cons.inj h
          rw [nesting_cons, Option.bind_eq_some_iff] at hn
          obtain ⟨k, hk, hn⟩ := hn
          have ht : takeToken k cs = some (token, some rest) :=
            ih.2 ⟨hcs, hn, mt (spacedAt_cons_of_nesting hs hk).2 hsp⟩
          exact ⟨k, hk, by rw [ht]; rfl⟩

theorem token_iff {cs : List Char} :
    Token cs ↔ cs ≠ [] ∧ nesting 0 cs = some 0 ∧ ¬ SpacedAt 0 cs := by
  rw [← outerSpace_iff_spacedAt, nesting_zero_iff]
  exact ⟨fun h => ⟨h.ne_nil, h.balanced, h.no_outerSpace⟩, fun ⟨h, hb, hs⟩ => ⟨h, hb, hs⟩⟩

theorem Token.takeToken_eq {cs : List Char} (h : Token cs) : takeToken 0 cs = some (cs, none) :=
  takeToken_eq_some_none.2 ⟨rfl, (token_iff.1 h).2⟩

theorem Token.takeToken_append {cs : List Char} (h : Token cs) (rest : List Char) :
    takeToken 0 (cs ++ ' ' :: rest) = some (cs, some rest) :=
  takeToken_eq_some_some.2 ⟨rfl, (token_iff.1 h).2⟩

/-- A run of the scan that reaches the end has read a token. -/
theorem token_of_takeToken_none {cs token : List Char} (hne : cs ≠ [])
    (h : takeToken 0 cs = some (token, none)) : token = cs ∧ Token token := by
  obtain ⟨rfl, hw⟩ := takeToken_eq_some_none.1 h
  exact ⟨rfl, token_iff.2 ⟨hne, hw⟩⟩

/-- A run of the scan that stops at a space has read a token, if it did not start at that space. -/
theorem token_of_takeToken_some {cs token rest : List Char} (hhead : cs.head? ≠ some ' ')
    (h : takeToken 0 cs = some (token, some rest)) :
    cs = token ++ ' ' :: rest ∧ Token token := by
  obtain ⟨rfl, hw⟩ := takeToken_eq_some_some.1 h
  refine ⟨rfl, token_iff.2 ⟨?_, hw⟩⟩
  rintro rfl
  exact hhead rfl

/-! ## Leading spaces -/

theorem dropSpaces_append {a : List Char} (h : Spaces a) (cs : List Char) :
    dropSpaces (a ++ cs) = dropSpaces cs :=
  List.dropWhile_append_of_pos fun c hc => decide_eq_true (h c hc)

theorem Spaces.dropSpaces_eq {a : List Char} (h : Spaces a) : dropSpaces a = [] :=
  List.dropWhile_eq_nil_iff.2 fun c hc => decide_eq_true (h c hc)

theorem exists_spaces_append_dropSpaces (cs : List Char) :
    ∃ a, Spaces a ∧ cs = a ++ dropSpaces cs := by
  refine ⟨cs.takeWhile (· = ' '), fun c hc => ?_, List.takeWhile_append_dropWhile.symm⟩
  exact of_decide_eq_true (List.mem_takeWhile_imp (p := fun c => decide (c = ' ')) hc)

theorem dropSpaces_head?_ne (cs : List Char) : (dropSpaces cs).head? ≠ some ' ' := by
  intro h
  have := List.head?_dropWhile_not (· = ' ') cs
  rw [show cs.dropWhile (· = ' ') = dropSpaces cs from rfl, h] at this
  simp at this

theorem Token.dropSpaces_append {cs : List Char} (h : Token cs) (rest : List Char) :
    dropSpaces (cs ++ rest) = cs ++ rest := by
  cases cs with
  | nil => exact absurd rfl h.ne_nil
  | cons c cs => simp [dropSpaces, h.head_ne_space]

/-! ## The cut -/

/-- The cut of a text with a token, which `takeToken` separates from the rest. -/
theorem split_of_takeToken {cs start : List Char} (hd : dropSpaces cs = start)
    (hne : start ≠ []) :
    split cs =
      match takeToken 0 start with
      | none => .unbalanced
      | some (first, none) => .single (unwrap first)
      | some (first, some rest) =>
        if dropSpaces rest = [] then .single (unwrap first)
        else
          match takeToken 0 (dropSpaces rest) with
          | none => .unbalanced
          | some (_, none) => .dangling
          | some (second, some right) => .binary first second right := by
  obtain ⟨c, start, rfl⟩ := List.exists_cons_of_ne_nil hne
  simp only [split, hd]
  cases takeToken 0 (c :: start) with
  | none => rfl
  | some t =>
    obtain ⟨first, rest⟩ := t
    cases rest with
    | none => rfl
    | some rest => cases hr : dropSpaces rest <;> simp only [hr] <;> rfl

theorem split_of_topLevel {cs : List Char} {s : Split} (h : TopLevel cs s) : split cs = s := by
  cases h with
  | empty ha => simp only [split, ha.dropSpaces_eq]
  | @single a w b ha hw hb =>
    have hd : dropSpaces (a ++ w ++ b) = w ++ b := by
      rw [List.append_assoc, dropSpaces_append ha, hw.dropSpaces_append]
    by_cases hne : b = []
    · subst hne
      rw [List.append_nil w] at hd
      rw [split_of_takeToken hd hw.ne_nil, hw.takeToken_eq]
    · obtain ⟨b, rfl, hb'⟩ := hb.exists_cons hne
      rw [split_of_takeToken hd (by simp), hw.takeToken_append]
      exact if_pos hb'.dropSpaces_eq
  | @binary a l s o r ha hl hs hne ho =>
    obtain ⟨s, rfl, hs'⟩ := hs.exists_cons hne
    have hd : dropSpaces (a ++ l ++ ' ' :: s ++ o ++ ' ' :: r) =
        l ++ ' ' :: (s ++ (o ++ ' ' :: r)) := by
      simp only [List.append_assoc, List.cons_append]
      rw [dropSpaces_append ha, hl.dropSpaces_append]
    have hnext : dropSpaces (s ++ (o ++ ' ' :: r)) = o ++ ' ' :: r := by
      rw [dropSpaces_append hs', ho.dropSpaces_append]
    rw [split_of_takeToken hd (by simp), hl.takeToken_append]
    simp [hnext, ho.takeToken_append]
  | @dangling a l s o ha hl hs hne ho =>
    obtain ⟨s, rfl, hs'⟩ := hs.exists_cons hne
    have hd : dropSpaces (a ++ l ++ ' ' :: s ++ o) = l ++ ' ' :: (s ++ o) := by
      simp only [List.append_assoc, List.cons_append]
      rw [dropSpaces_append ha, hl.dropSpaces_append]
    have hnext : dropSpaces (s ++ o) = o := by
      rw [dropSpaces_append hs']
      simpa using ho.dropSpaces_append []
    rw [split_of_takeToken hd (by simp), hl.takeToken_append]
    simp [hnext, ho.takeToken_eq, ho.ne_nil]

/-- The second run of the scan shows how a text looks that has more than one token. -/
theorem topLevel_of_second {a first rest second : List Char} {right : Option (List Char)}
    (ha : Spaces a) (hfirst : Token first) (hne : dropSpaces rest ≠ [])
    (h : takeToken 0 (dropSpaces rest) = some (second, right)) :
    TopLevel (a ++ (first ++ ' ' :: rest))
      (match right with
        | none => .dangling
        | some right => .binary first second right) := by
  obtain ⟨s, hs, hrest⟩ := exists_spaces_append_dropSpaces rest
  have hs' : Spaces (' ' :: s) := by simpa [Spaces] using hs
  cases right with
  | none =>
    obtain ⟨hw, htok⟩ := token_of_takeToken_none hne h
    have := TopLevel.dangling ha hfirst hs' (List.cons_ne_nil _ _) htok
    rw [hw] at this
    simpa [← hrest] using this
  | some right =>
    obtain ⟨hw, htok⟩ := token_of_takeToken_some (dropSpaces_head?_ne rest) h
    have := TopLevel.binary right ha hfirst hs' (List.cons_ne_nil _ _) htok
    rw [List.append_assoc, ← hw] at this
    simpa [← hrest] using this

theorem topLevel_of_first {a first rest : List Char} (ha : Spaces a) (hfirst : Token first)
    (hrest : dropSpaces rest = []) :
    TopLevel (a ++ (first ++ ' ' :: rest)) (.single (unwrap first)) := by
  obtain ⟨s, hs, heq⟩ := exists_spaces_append_dropSpaces rest
  rw [hrest, List.append_nil] at heq
  subst heq
  have hs' : Spaces (' ' :: rest) := by simpa [Spaces] using hs
  simpa using TopLevel.single ha hfirst hs'

/-- Every cut but the one that finds a parenthesis without a partner shows how the text looks. -/
theorem topLevel_split {cs : List Char} (h : split cs ≠ .unbalanced) : TopLevel cs (split cs) := by
  obtain ⟨a, ha, hcs⟩ := exists_spaces_append_dropSpaces cs
  by_cases hne : dropSpaces cs = []
  · have hempty : split cs = .empty := by simp only [split, hne]
    rw [hne, List.append_nil] at hcs
    rw [hempty, hcs]
    exact .empty ha
  · rw [split_of_takeToken rfl hne] at h ⊢
    cases hfirst : takeToken 0 (dropSpaces cs) with
    | none => simp [hfirst] at h
    | some t =>
      obtain ⟨first, rest⟩ := t
      cases rest with
      | none =>
        obtain ⟨hw, htok⟩ := token_of_takeToken_none hne hfirst
        have := TopLevel.single ha htok Spaces.nil
        rwa [List.append_nil, hw, ← hcs, ← hw] at this
      | some rest =>
        obtain ⟨hw, htok⟩ := token_of_takeToken_some (dropSpaces_head?_ne cs) hfirst
        rw [hw] at hcs
        rw [hfirst] at h
        simp only at h ⊢
        by_cases hnext : dropSpaces rest = []
        · rw [if_pos hnext, hcs]
          exact topLevel_of_first ha htok hnext
        · rw [if_neg hnext] at h ⊢
          cases hsecond : takeToken 0 (dropSpaces rest) with
          | none => simp [hsecond] at h
          | some t =>
            have := topLevel_of_second ha htok hnext hsecond
            rw [← hcs] at this
            obtain ⟨second, right⟩ := t
            cases right <;> exact this

/-- The cut is the only way to see a text as spaces and tokens. -/
theorem split_eq_iff {cs : List Char} {s : Split} (hs : s ≠ .unbalanced) :
    split cs = s ↔ TopLevel cs s := by
  constructor
  · rintro rfl
    exact topLevel_split hs
  · exact split_of_topLevel

/-- A text that looks like no cut has a parenthesis without a partner. -/
theorem split_cases (cs : List Char) :
    TopLevel cs (split cs) ∨ (split cs = .unbalanced ∧ ∀ s, ¬ TopLevel cs s) := by
  by_cases h : split cs = .unbalanced
  · refine .inr ⟨h, fun s hs => ?_⟩
    rw [split_of_topLevel hs] at h
    cases hs <;> cases h
  · exact .inl (topLevel_split h)

/-! ## Enclosing parentheses -/

theorem unwrap_of_wraps {token inside : List Char} (h : Wraps token inside) :
    unwrap token = inside := by
  obtain ⟨rfl, hb⟩ := h
  simp [unwrap, balanced_iff.2 hb]

theorem unwrap_of_not_wraps {token : List Char} (h : ∀ inside, ¬ Wraps token inside) :
    unwrap token = token := by
  unfold unwrap
  split
  · next rest =>
    split
    · next hr =>
      obtain ⟨ys, rfl⟩ := List.getLast?_eq_some_iff.1 hr.1
      exact absurd ⟨rfl, by simpa using balanced_iff.1 hr.2⟩ (h ys)
    · rfl
  · rfl

/-- Either a pair of parentheses encloses the token and is dropped, or nothing happens. -/
theorem unwrap_cases (token : List Char) :
    Wraps token (unwrap token) ∨ ((∀ inside, ¬ Wraps token inside) ∧ unwrap token = token) := by
  by_cases h : ∃ inside, Wraps token inside
  · obtain ⟨inside, hw⟩ := h
    rw [unwrap_of_wraps hw]
    exact .inl hw
  · have h' : ∀ inside, ¬ Wraps token inside := fun inside hw => h ⟨inside, hw⟩
    exact .inr ⟨h', unwrap_of_not_wraps h'⟩

theorem Wraps.length_eq {token inside : List Char} (h : Wraps token inside) :
    token.length = inside.length + 2 := by
  rw [h.1]
  simp

theorem length_unwrap_le (token : List Char) : (unwrap token).length ≤ token.length := by
  rcases unwrap_cases token with h | ⟨-, h⟩
  · have := h.length_eq
    omega
  · rw [h]

end LicenseAudit.Expr
