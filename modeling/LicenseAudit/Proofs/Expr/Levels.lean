import LicenseAudit.Proofs.Expr.Grammar
import Mathlib.Data.List.Basic

/-!
# Levels of a text

Every `!`, every operator and every pair of parentheses that is dropped adds a level to a text, and
spaces add none. The parser does not count in this way: where it drops spaces around a name, a
constant or a negation, and no parentheses with them, it goes one level down too. `Spends` counts
both ways in one derivation.

Results:
1. `exists_levels_iff`: the texts with levels are the texts of the grammar.
2. `Spends.needs`: the levels that are spent decide between success and an error about depth.
3. `Spends.bounds`: spaces cost one level for each level that there is, and one more at most.
4. `Levels.spends`: a text in which no space is superfluous spends the levels it has.
5. `parse_reads`: what the parser returns is what the grammar gives, up to the levels there are.
6. `parse_levels`: what the levels of a text say about the parser.
7. `parse_padded_tooDeep`: spaces that make a text nest too deep.
-/

namespace LicenseAudit.Expr

/-! ## Definitions -/

/-- The levels of a text above its deepest leaf, by the rules of the grammar. -/
inductive Levels : List Char → Nat → Prop
  | atom {a : List Char} : Atom a → Levels a 0
  | empty : Levels [] 0
  | not {w : List Char} {n : Nat} : Levels w n → ¬ OuterSpace w → Levels ('!' :: w) (n + 1)
  | binary {l s o r : List Char} {join : Expr → Expr → Expr} {n n' : Nat} :
      Levels l n → l ≠ [] → ¬ OuterSpace l → Spaces s → s ≠ [] → Connects o join →
      Levels r n' → Text.allBlank r = false → Levels (l ++ s ++ o ++ ' ' :: r) (max n n' + 1)
  | paren {w : List Char} {n : Nat} : Levels w n → Text.allBlank w = false →
      Levels ('(' :: (w ++ [')'])) (n + 1)
  | pad {a w b : List Char} {n : Nat} : Levels w n → Spaces a → Spaces b → Levels (a ++ w ++ b) n

/-- `Spends cs n m`: the text has `n` levels, and the parser spends `m` levels on it.

* `binary`: spaces before an operand are nothing to drop, and those at the end of the text belong to
  the right operand.
* `paren`: spaces are dropped along with the parentheses they surround.
* `padded`: spaces around a name, a constant or a negation are dropped on a level of their own. -/
inductive Spends : List Char → Nat → Nat → Prop
  | blank {a : List Char} : Spaces a → Spends a 0 0
  | atom {a : List Char} : Atom a → Spends a 0 0
  | not {w : List Char} {n m : Nat} : Token ('!' :: w) → Spends w n m →
      Spends ('!' :: w) (n + 1) (m + 1)
  | binary {a l s o r : List Char} {join : Expr → Expr → Expr} {n m n' m' : Nat} :
      Spaces a → Token l → Spends l n m → Spaces s → s ≠ [] → Connects o join →
      Spends r n' m' → Text.allBlank r = false →
      Spends (a ++ l ++ s ++ o ++ ' ' :: r) (max n n' + 1) (max m m' + 1)
  | paren {a w b : List Char} {n m : Nat} : Spaces a → Balanced w → Text.allBlank w = false →
      Spends w n m → Spaces b → Spends (a ++ '(' :: (w ++ [')']) ++ b) (n + 1) (m + 1)
  | padded {a w b : List Char} {n m : Nat} : Spaces a → Token w → Text.allBlank w = false →
      (∀ inside, ¬ Wraps w inside) → Spends w n m → Spaces b → a ++ b ≠ [] →
      Spends (a ++ w ++ b) n (m + 1)

/-- The text can be read if it may nest more than `m` levels deep, and else it is too deep. -/
structure Needs (cs : List Char) (m : Nat) : Prop where
  ok_of_lt : ∀ levels, m < levels → ∃ e, parseAt levels cs = .ok e
  deep_of_le : ∀ levels, levels ≤ m → TooDeep (parseAt levels cs)

/-- No space of the text is superfluous: each of them stands between two characters, and these are
no spaces and no parentheses on their inner side. -/
def Unpadded (cs : List Char) : Prop :=
  ∀ a b, cs = a ++ ' ' :: b →
    (∃ c, a.getLast? = some c ∧ c ≠ ' ' ∧ c ≠ '(') ∧ ∃ c, b.head? = some c ∧ c ≠ ' ' ∧ c ≠ ')'

/-! ## The texts with levels -/

theorem atom_iff {a : List Char} :
    Atom a ↔ Text.allBlank a = false ∧ Balanced a ∧ ¬ OuterSpace a ∧ a.head? ≠ some '!' ∧
      ∀ w, Balanced w → a ≠ '(' :: (w ++ [')']) := by
  constructor
  · intro h
    exact ⟨h.not_blank, h.token.balanced, h.token.no_outerSpace, h.not_negated,
      fun w hw heq => h.not_wrapped w ⟨heq, hw⟩⟩
  · rintro ⟨hblank, hb, hs, hneg, hw⟩
    have hne : a ≠ [] := by
      rintro rfl
      cases hblank
    exact ⟨⟨hne, hb, hs⟩, hblank, hneg, fun w h => hw w h.2 h.1⟩

/-- A text has levels if the grammar gives it an expression. -/
theorem exists_levels_iff {cs : List Char} : (∃ n, Levels cs n) ↔ ∃ e, Reads cs e := by
  constructor
  · rintro ⟨n, h⟩
    induction h with
    | atom ha => exact ⟨_, reads_of_atom ha⟩
    | empty => exact ⟨_, .empty⟩
    | not _ hs ih =>
      obtain ⟨e, he⟩ := ih
      exact ⟨_, .not he hs⟩
    | binary _ hne hl hs hsne hop _ hblank ihl ihr =>
      obtain ⟨a, ha⟩ := ihl
      obtain ⟨b, hb⟩ := ihr
      exact ⟨_, .binary ha hne hl hs hsne hop hb hblank⟩
    | paren _ hblank ih =>
      obtain ⟨e, he⟩ := ih
      exact ⟨_, .paren he hblank⟩
    | pad _ ha hb ih =>
      obtain ⟨e, he⟩ := ih
      exact ⟨_, .pad he ha hb⟩
  · rintro ⟨e, h⟩
    induction h with
    | atom hblank hb hs hneg hw => exact ⟨_, .atom (atom_iff.2 ⟨hblank, hb, hs, hneg, hw⟩)⟩
    | empty => exact ⟨_, .empty⟩
    | not _ hs ih =>
      obtain ⟨n, hn⟩ := ih
      exact ⟨_, .not hn hs⟩
    | binary _ hne hl hs hsne hop _ hblank ihl ihr =>
      obtain ⟨n, hn⟩ := ihl
      obtain ⟨n', hn'⟩ := ihr
      exact ⟨_, .binary hn hne hl hs hsne hop hn' hblank⟩
    | paren _ hblank ih =>
      obtain ⟨n, hn⟩ := ih
      exact ⟨_, .paren hn hblank⟩
    | pad _ ha hb ih =>
      obtain ⟨n, hn⟩ := ih
      exact ⟨_, .pad hn ha hb⟩

/-- A word of other characters than spaces and parentheses is a name. -/
theorem atom_of_word {a : List Char} (hblank : Text.allBlank a = false)
    (hneg : a.head? ≠ some '!') (hs : ' ' ∉ a) (ho : '(' ∉ a) (hc : ')' ∉ a) : Atom a := by
  refine atom_iff.2 ⟨hblank, balanced_of_no_parenthesis ho hc, fun h => hs h.mem, hneg, ?_⟩
  rintro w - rfl
  exact ho List.mem_cons_self

theorem Levels.balanced {cs : List Char} {n : Nat} (h : Levels cs n) : Balanced cs := by
  obtain ⟨e, he⟩ := exists_levels_iff.1 ⟨n, h⟩
  exact he.balanced

/-! ## The levels that the parser spends -/

theorem TooDeep.negated {operand : Except ParseError Expr} (h : TooDeep operand) :
    TooDeep ((operand.mapError (·.under .negation)).map .not) := by
  obtain ⟨path, rfl⟩ := h
  exact ⟨.negation :: path, rfl⟩

theorem TooDeep.joined_left {left : Except ParseError Expr} (h : TooDeep left) (o : List Char)
    (right : Except ParseError Expr) : TooDeep (joined o left right) := by
  obtain ⟨path, rfl⟩ := h
  exact ⟨.left :: path, rfl⟩

theorem TooDeep.joined_right {right : Except ParseError Expr} (h : TooDeep right) (o : List Char)
    (l : Expr) : TooDeep (joined o (.ok l) right) := by
  obtain ⟨path, rfl⟩ := h
  exact ⟨.right :: path, rfl⟩

namespace Needs

/-- Without a level nothing is read, so the levels below the first one decide. -/
theorem of_read {cs : List Char} {m : Nat}
    (hok : ∀ k, m < k → ∃ e, (form cs).read (parseAt k) = .ok e)
    (hdeep : ∀ k, k ≤ m → TooDeep ((form cs).read (parseAt k))) : Needs cs (m + 1) := by
  constructor
  · intro levels hlt
    cases levels with
    | zero => exact absurd hlt (Nat.not_lt_zero _)
    | succ k =>
      rw [parseAt_succ]
      exact hok k (Nat.lt_of_succ_lt_succ hlt)
  · intro levels hle
    cases levels with
    | zero => exact ⟨[], rfl⟩
    | succ k =>
      rw [parseAt_succ]
      exact hdeep k (Nat.le_of_succ_le_succ hle)

theorem of_settled {cs : List Char} {e : Expr} (h : form cs = .settled (.ok e)) : Needs cs 0 := by
  constructor
  · intro levels hlt
    obtain ⟨k, rfl⟩ := Nat.exists_eq_succ_of_ne_zero (Nat.ne_of_gt hlt)
    rw [parseAt_succ, h]
    exact ⟨e, rfl⟩
  · intro levels hle
    obtain rfl := Nat.le_zero.1 hle
    exact ⟨[], rfl⟩

theorem of_inner {cs inside : List Char} {m : Nat} (h : form cs = .inner inside)
    (hm : Needs inside m) : Needs cs (m + 1) := by
  refine of_read (fun k hk => ?_) fun k hk => ?_
  · rw [h]
    exact hm.ok_of_lt k hk
  · rw [h]
    exact hm.deep_of_le k hk

theorem of_negation {cs operand : List Char} {m : Nat} (h : form cs = .negation operand)
    (hm : Needs operand m) : Needs cs (m + 1) := by
  refine of_read (fun k hk => ?_) fun k hk => ?_
  · obtain ⟨e, he⟩ := hm.ok_of_lt k hk
    exact ⟨.not e, by rw [h, Form.read_eq_ok]; exact ⟨e, he, rfl⟩⟩
  · rw [h]
    exact (hm.deep_of_le k hk).negated

theorem of_binary {cs l o r : List Char} {join : Expr → Expr → Expr} {m m' : Nat}
    (h : form cs = .binary l o r) (hop : Connects o join) (hl : Needs l m) (hr : Needs r m') :
    Needs cs (max m m' + 1) := by
  refine of_read (fun k hk => ?_) fun k hk => ?_
  · obtain ⟨a, ha⟩ := hl.ok_of_lt k (by omega)
    obtain ⟨b, hb⟩ := hr.ok_of_lt k (by omega)
    exact ⟨join a b, by rw [h, Form.read_eq_ok]; exact ⟨join, a, b, hop, ha, hb, rfl⟩⟩
  · rw [h, Form.read]
    -- The left operand is read first, so its error is the one that stays.
    rcases Nat.lt_or_ge m k with hlt | hge
    · obtain ⟨a, ha⟩ := hl.ok_of_lt k hlt
      rw [ha]
      exact (hr.deep_of_le k (by omega)).joined_right o a
    · exact (hl.deep_of_le k hge).joined_left o _

end Needs

/-- The text inside parentheses is what the parser goes on with, whatever spaces surround them. -/
theorem form_paren {a w b : List Char} (ha : Spaces a) (hw : Balanced w)
    (hblank : Text.allBlank w = false) (hb : Spaces b) :
    form (a ++ '(' :: (w ++ [')']) ++ b) = .inner w := by
  have hwrap : unwrap ('(' :: (w ++ [')'])) = w := unwrap_of_wraps ⟨rfl, hw⟩
  have hne : unwrap ('(' :: (w ++ [')'])) ≠ a ++ '(' :: (w ++ [')']) ++ b := by
    intro heq
    have := congrArg List.length (hwrap.symm.trans heq)
    simp at this
    omega
  have hform := form_of_formOf (.inner ha hw.token_wrap hb (by rwa [hwrap]) hne)
  rwa [hwrap] at hform

theorem form_padded {a w b : List Char} (ha : Spaces a) (hw : Token w)
    (hblank : Text.allBlank w = false) (hself : ∀ inside, ¬ Wraps w inside) (hb : Spaces b)
    (hne : a ++ b ≠ []) : form (a ++ w ++ b) = .inner w := by
  have hwrap : unwrap w = w := unwrap_of_not_wraps hself
  have hne' : unwrap w ≠ a ++ w ++ b := by
    intro heq
    obtain ⟨rfl, rfl⟩ := nil_of_unwrap_eq_append heq
    exact hne rfl
  have hform := form_of_formOf (.inner ha hw hb (by rwa [hwrap]) hne')
  rwa [hwrap] at hform

/-- The parser needs the levels that it spends. -/
theorem Spends.needs {cs : List Char} {n m : Nat} (h : Spends cs n m) : Needs cs m := by
  induction h with
  | blank ha => exact .of_settled (form_of_formOf (.blank ha))
  | atom ha => exact .of_settled (form_of_formOf (.atom ha))
  | not ht _ ih => exact .of_negation (form_of_formOf (.negation ht)) ih
  | binary ha hl _ hs hne hop _ hblank ihl ihr =>
    exact .of_binary (form_of_formOf (.binary ha hl hs hne hop.token hblank)) hop ihl ihr
  | paren ha hw hblank _ hb ih => exact .of_inner (form_paren ha hw hblank hb) ih
  | padded ha hw hblank hself _ hb hne ih =>
    exact .of_inner (form_padded ha hw hblank hself hb hne) ih

/-! ## What spaces cost -/

theorem outerSpace_pad {a w b : List Char} (ha : Spaces a) (hw : Balanced w) (hb : Spaces b)
    (hne : a ++ b ≠ []) : OuterSpace (a ++ w ++ b) := by
  by_cases hnil : b = []
  · subst hnil
    obtain ⟨a, rfl, -⟩ := ha.exists_cons (by simpa using hne)
    exact ⟨[], a ++ w, by simp, .nil⟩
  · obtain ⟨b, rfl, -⟩ := hb.exists_cons hnil
    exact ⟨a ++ w, b, rfl, ha.balanced.append hw⟩

/-- Spaces cost a level at most for each level that there is, and a further one at the ends of the
text. -/
theorem Spends.bounds {cs : List Char} {n m : Nat} (h : Spends cs n m) :
    n ≤ m ∧ m ≤ 2 * n + 1 ∧ (¬ OuterSpace cs → m ≤ 2 * n) := by
  -- The bound without the further level carries the induction: what stands between dropped spaces
  -- has none at its own ends.
  induction h with
  | blank | atom => simp
  | not _ _ ih => omega
  | @binary a l s o r join n m n' m' _ _ _ _ _ _ _ _ ihl ihr =>
    have hsum : max m m' + 1 ≤ 2 * (max n n' + 1) := by omega
    exact ⟨by omega, by omega, fun _ => hsum⟩
  | paren _ _ _ _ _ ih => omega
  | padded ha hw _ _ _ hb hne ih =>
    have hle := ih.2.2 hw.no_outerSpace
    exact ⟨by omega, by omega, fun hno => absurd (outerSpace_pad ha hw.balanced hb hne) hno⟩

/-- Spaces at the ends of a text leave its levels as they are. -/
theorem Spends.pad {w : List Char} {n m : Nat} (h : Spends w n m) {a b : List Char} (ha : Spaces a)
    (hb : Spaces b) : ∃ m', Spends (a ++ w ++ b) n m' := by
  induction h generalizing a b with
  | blank hw => exact ⟨0, .blank ((ha.append hw).append hb)⟩
  | @atom w hw =>
    by_cases hne : a ++ b = []
    · obtain ⟨rfl, rfl⟩ := List.append_eq_nil_iff.1 hne
      exact ⟨0, by simpa using Spends.atom hw⟩
    · exact ⟨1, .padded ha hw.token hw.not_blank hw.not_wrapped (.atom hw) hb hne⟩
  | @not w n m ht hw _ =>
    by_cases hne : a ++ b = []
    · obtain ⟨rfl, rfl⟩ := List.append_eq_nil_iff.1 hne
      exact ⟨m + 1, by simpa using Spends.not ht hw⟩
    · exact ⟨m + 2, .padded ha ht (allBlank_negation w)
        (not_wraps_of_unwrap_eq (unwrap_negation w)) (.not ht hw) hb hne⟩
  | @binary a' l s o r join n m n' m' ha' hl hlm hs hsne hop _ hblank _ ihr =>
    obtain ⟨k, hk⟩ := ihr .nil hb
    have := Spends.binary (ha.append ha') hl hlm hs hsne hop hk
      (by simpa using allBlank_append_of_left hblank b)
    exact ⟨max m k + 1, by simpa using this⟩
  | @paren a' w b' n m ha' hw hblank hm hb' _ =>
    have := Spends.paren (ha.append ha') hw hblank hm (hb'.append hb)
    exact ⟨m + 1, by simpa using this⟩
  | @padded a' w b' n m ha' hw hblank hself hm hb' hne _ =>
    have hne' : (a ++ a') ++ (b' ++ b) ≠ [] := by
      intro hnil
      simp only [List.append_eq_nil_iff] at hnil
      exact hne (by simp [hnil])
    have := Spends.padded (ha.append ha') hw hblank hself hm (hb'.append hb) hne'
    exact ⟨m + 1, by simpa using this⟩

/-- What is spent is spent on the levels of the text. -/
theorem Spends.levels {cs : List Char} {n m : Nat} (h : Spends cs n m) : Levels cs n := by
  induction h with
  | blank ha => simpa using Levels.pad .empty ha .nil
  | atom ha => exact .atom ha
  | not ht _ ih => exact .not ih (token_negation_iff.1 ht).2
  | binary ha hl _ hs hne hop _ hblank ihl ihr =>
    have := Levels.pad (.binary ihl hl.ne_nil hl.no_outerSpace hs hne hop ihr hblank) ha .nil
    simpa using this
  | paren ha _ hblank _ hb ih => exact .pad (.paren ih hblank) ha hb
  | padded ha _ _ _ _ hb _ ih => exact .pad ih ha hb

/-! ## Texts without superfluous spaces -/

/-- A part of a text has no superfluous space if the text has none, unless it ends where the text
goes on. -/
theorem Unpadded.part {x w y : List Char} (h : Unpadded (x ++ w ++ y))
    (hx : w.head? = some ' ' → ∀ c ∈ x.getLast?, c = ' ' ∨ c = '(')
    (hy : ∀ c ∈ y.head?, c = ' ' ∨ c = ')') : Unpadded w := by
  rintro a b rfl
  obtain ⟨⟨c, hc, hcs, hco⟩, d, hd, hds, hdc⟩ := h (x ++ a) (b ++ y) (by simp)
  constructor
  · cases a with
    | nil =>
      rw [List.append_nil] at hc
      exact ((hx rfl c hc).elim hcs hco).elim
    | cons e a =>
      rw [List.getLast?_append_of_ne_nil x (List.cons_ne_nil e a)] at hc
      exact ⟨c, hc, hcs, hco⟩
  · cases b with
    | nil => exact ((hy d hd).elim hds hdc).elim
    | cons e b => exact ⟨d, hd, hds, hdc⟩

theorem Unpadded.eq_nil_of_pad {a w b : List Char} (h : Unpadded (a ++ w ++ b)) (ha : Spaces a)
    (hb : Spaces b) : a = [] ∧ b = [] := by
  constructor
  · by_contra hne
    obtain ⟨a, rfl, -⟩ := ha.exists_cons hne
    obtain ⟨⟨c, hc, -⟩, -⟩ := h [] (a ++ w ++ b) (by simp)
    cases hc
  · by_contra hne
    obtain ⟨b', hb'⟩ : ∃ b', b = b' ++ [' '] := by
      obtain ⟨b', c, rfl⟩ := (List.eq_nil_or_concat b).resolve_left hne
      exact ⟨b', by rw [hb c (by simp)]; simp⟩
    obtain ⟨-, c, hc, -⟩ := h (a ++ w ++ b') [] (by simp [hb'])
    cases hc

/-- The parser spends levels on every text that has some: just these, if no space is
superfluous. -/
theorem Levels.spends {cs : List Char} {n : Nat} (h : Levels cs n) :
    ∃ m, Spends cs n m ∧ (Unpadded cs → m = n) := by
  induction h with
  | atom ha => exact ⟨0, .atom ha, fun _ => rfl⟩
  | empty => exact ⟨0, .blank .nil, fun _ => rfl⟩
  | @not w n hw hs ih =>
    obtain ⟨m, hm, heq⟩ := ih
    refine ⟨m + 1, .not (token_negation_iff.2 ⟨hw.balanced, hs⟩) hm, fun hu => ?_⟩
    have hpart : Unpadded w := by
      refine Unpadded.part (x := ['!']) (y := []) (by simpa using hu) (fun hhead => ?_) (by simp)
      obtain ⟨v, rfl⟩ := List.head?_eq_some_iff.1 hhead
      exact absurd ⟨[], v, rfl, .nil⟩ hs
    rw [heq hpart]
  | @binary l s o r join n n' hl hne hlo hs hsne hop hr hblank ihl ihr =>
    obtain ⟨m, hm, heq⟩ := ihl
    obtain ⟨m', hm', heq'⟩ := ihr
    have hspends := Spends.binary .nil ⟨hne, hl.balanced, hlo⟩ hm hs hsne hop hm' hblank
    refine ⟨max m m' + 1, by simpa using hspends, fun hu => ?_⟩
    have hleft : Unpadded l := by
      obtain ⟨s, rfl, -⟩ := hs.exists_cons hsne
      exact Unpadded.part (x := []) (y := ' ' :: s ++ o ++ ' ' :: r) (by simpa using hu) (by simp)
        (by simp)
    have hright : Unpadded r :=
      Unpadded.part (x := l ++ s ++ o ++ [' ']) (y := []) (by simpa using hu) (by simp) (by simp)
    rw [heq hleft, heq' hright]
  | @paren w n hw hblank ih =>
    obtain ⟨m, hm, heq⟩ := ih
    refine ⟨m + 1, by simpa using Spends.paren .nil hw.balanced hblank hm .nil, fun hu => ?_⟩
    have hpart : Unpadded w :=
      Unpadded.part (x := ['(']) (y := [')']) (by simpa using hu) (by simp) (by simp)
    rw [heq hpart]
  | @pad a w b n _ ha hb ih =>
    obtain ⟨m, hm, heq⟩ := ih
    by_cases hnil : a = [] ∧ b = []
    · obtain ⟨rfl, rfl⟩ := hnil
      exact ⟨m, by simpa using hm, by simpa using heq⟩
    · obtain ⟨m', hm'⟩ := hm.pad ha hb
      exact ⟨m', hm', fun hu => absurd (hu.eq_nil_of_pad ha hb) hnil⟩

/-! ## The parser -/

/-- With more levels than a text needs, the parser returns what the grammar gives. -/
theorem Reads.parseAt_of_lt {cs : List Char} {e : Expr} {m levels : Nat} (h : Reads cs e)
    (hm : Needs cs m) (hlt : m < levels) : parseAt levels cs = .ok e := by
  obtain ⟨e', he'⟩ := hm.ok_of_lt levels hlt
  rwa [h.unique (reads_of_parseAt he')]

/-- The parser returns only what the grammar gives. It returns that if it spends no more than 256
levels on the text, and else the text nests too deep. -/
theorem parse_reads (text : String) (e : Expr) :
    (parse text = .ok e → Reads text.toList e) ∧
      (Reads text.toList e → ∃ n m, Spends text.toList n m ∧
        (m ≤ maxDepth ∧ parse text = .ok e ∨
          maxDepth < m ∧ ∃ path, parse text = .error ⟨path, .tooDeep maxDepth⟩)) := by
  refine ⟨reads_of_parseAt, fun h => ?_⟩
  obtain ⟨n, hn⟩ := exists_levels_iff.2 ⟨e, h⟩
  obtain ⟨m, hm, -⟩ := hn.spends
  refine ⟨n, m, hm, ?_⟩
  rcases Nat.lt_or_ge maxDepth m with hlt | hle
  · exact .inr ⟨hlt, hm.needs.deep_of_le _ hlt⟩
  · exact .inl ⟨hle, h.parseAt_of_lt hm.needs (Nat.lt_succ_of_le hle)⟩

/-- A text with more than 256 levels is too deep, and one with as many at most can be read if none
of its spaces is superfluous. Other spaces count, so what decides in every case are the levels that
are spent; they are at most twice as many and one. -/
theorem parse_levels {text : String} {n : Nat} (h : Levels text.toList n) :
    (maxDepth < n → TooDeep (parse text)) ∧
      (n ≤ maxDepth → Unpadded text.toList → ∃ e, parse text = .ok e) ∧
      ∃ m, Spends text.toList n m ∧ n ≤ m ∧ m ≤ 2 * n + 1 ∧
        (m ≤ maxDepth → ∃ e, parse text = .ok e) ∧ (maxDepth < m → TooDeep (parse text)) := by
  obtain ⟨m, hm, heq⟩ := h.spends
  obtain ⟨hle, htwice, -⟩ := hm.bounds
  have hok : m ≤ maxDepth → ∃ e, parse text = .ok e := fun hm' =>
    hm.needs.ok_of_lt _ (Nat.lt_succ_of_le hm')
  have hdeep : maxDepth < m → TooDeep (parse text) := fun hm' => hm.needs.deep_of_le _ hm'
  refine ⟨fun hn => hdeep (Nat.lt_of_lt_of_le hn hle), fun hn hu => hok ?_, m, hm, hle, htwice, hok,
    hdeep⟩
  rwa [heq hu]

theorem parse_levels_spaced :
    Levels "a || !( b )".toList 3 ∧ ∃ e, parse "a || !( b )" = .ok e := by
  have ha : Atom ['a'] := atom_of_word rfl (by decide) (by decide) (by decide) (by decide)
  have hb : Atom ['b'] := atom_of_word rfl (by decide) (by decide) (by decide) (by decide)
  have hspace : Spaces [' '] := by simp [Spaces]
  have hinner : Levels [' ', 'b', ' '] 0 := .pad (.atom hb) hspace hspace
  have hright : Levels ['!', '(', ' ', 'b', ' ', ')'] 2 :=
    .not (.paren hinner rfl) hinner.balanced.token_wrap.no_outerSpace
  have hlevels : Levels "a || !( b )".toList 3 :=
    .binary (.atom ha) (List.cons_ne_nil _ _) ha.token.no_outerSpace hspace (List.cons_ne_nil _ _)
      .or hright rfl
  obtain ⟨m, -, -, hm, hok, -⟩ := (parse_levels hlevels).2.2
  exact ⟨hlevels, hok (Nat.le_trans hm (by decide))⟩

/-! ## Spaces that count -/

/-- A text in `k` pairs of parentheses. -/
def nested (k : Nat) (w : List Char) : List Char :=
  List.replicate k '(' ++ w ++ List.replicate k ')'

theorem nested_succ (k : Nat) (w : List Char) :
    nested (k + 1) w = '(' :: (nested k w ++ [')']) := by
  rw [nested, nested, List.replicate_succ, List.replicate_succ']
  simp

theorem Spends.nested {w : List Char} {n m : Nat} (h : Spends w n m)
    (hblank : Text.allBlank w = false) (k : Nat) :
    Spends (nested k w) (n + k) (m + k) ∧ Text.allBlank (Expr.nested k w) = false := by
  induction k with
  | zero => simpa [Expr.nested] using ⟨h, hblank⟩
  | succ k ih =>
    obtain ⟨hspends, hblank⟩ := ih
    rw [nested_succ]
    refine ⟨?_, by simp [Text.allBlank, show Text.isBlank '(' = false from rfl]⟩
    simpa [Nat.add_assoc] using Spends.paren .nil hspends.levels.balanced hblank hspends .nil

/-- Spaces inside 256 pairs of parentheses make a text too deep that could be read without them, and
both texts have 256 levels. -/
theorem parse_padded_tooDeep :
    (∃ e, parse (String.ofList (nested maxDepth ['a'])) = .ok e) ∧
      TooDeep (parse (String.ofList (nested maxDepth [' ', 'a', ' ']))) ∧
      ¬ ∀ text n, Levels text.toList n → n ≤ maxDepth → ∃ e, parse text = .ok e := by
  have ha : Atom ['a'] := atom_of_word rfl (by decide) (by decide) (by decide) (by decide)
  have hspace : Spaces [' '] := by simp [Spaces]
  have hplain := ((Spends.atom ha).nested rfl maxDepth).1
  have hpadded := ((Spends.padded hspace ha.token rfl ha.not_wrapped (.atom ha) hspace
    (by decide)).nested rfl maxDepth).1
  have hok : ∃ e, parse (String.ofList (nested maxDepth ['a'])) = .ok e := by
    rw [parse, String.toList_ofList]
    exact hplain.needs.ok_of_lt _ (by decide)
  have hdeep : TooDeep (parse (String.ofList (nested maxDepth [' ', 'a', ' ']))) := by
    rw [parse, String.toList_ofList]
    exact hpadded.needs.deep_of_le _ (by decide)
  refine ⟨hok, hdeep, fun h => ?_⟩
  obtain ⟨e, he⟩ := h (String.ofList (nested maxDepth [' ', 'a', ' '])) (0 + maxDepth)
    (by rw [String.toList_ofList]; exact hpadded.levels) (by decide)
  obtain ⟨path, hpath⟩ := hdeep
  rw [he] at hpath
  cases hpath

end LicenseAudit.Expr
