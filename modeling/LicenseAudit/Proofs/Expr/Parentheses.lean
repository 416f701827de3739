import LicenseAudit.Expr.Split

/-!
# Parentheses and outer spaces

A text is balanced when, read from left to right, it never closes more parentheses than it has
opened, and has closed all of them at its end. A space is an outer one when the text before it is
balanced, so that it stands outside all parentheses. A token is a balanced text without outer
spaces.

Results:
1. `nesting_eq_some_iff`, `balanced_iff`: the scan `nesting` decides balance, which is stated here by
   counting in every prefix.
2. `Balanced.append`, `Balanced.of_append`, `Balanced.wrap`: balanced texts put together, cut apart
   and enclosed.
3. `outerSpace_iff_spacedAt`, `spacedAt_cons`: outer spaces, character by character.
-/

namespace LicenseAudit.Expr

/-! ## Definitions -/

/-- Read from left to right, the text never closes more parentheses than it has opened, and in the
end it has closed them all. -/
structure Balanced (cs : List Char) : Prop where
  never_below : ∀ p, p <+: cs → p.count ')' ≤ p.count '('
  closed : cs.count '(' = cs.count ')'

/-- The text has a space outside parentheses. -/
def OuterSpace (cs : List Char) : Prop := ∃ p s, cs = p ++ ' ' :: s ∧ Balanced p

/-- A stretch of text that the top level does not divide. -/
structure Token (cs : List Char) : Prop where
  ne_nil : cs ≠ []
  balanced : Balanced cs
  no_outerSpace : ¬ OuterSpace cs

/-- Nothing but spaces. -/
def Spaces (cs : List Char) : Prop := ∀ c, c ∈ cs → c = ' '

/-- The text has a space where no parenthesis is open, when `depth` were open before it. -/
def SpacedAt (depth : Nat) (cs : List Char) : Prop :=
  ∃ p s, cs = p ++ ' ' :: s ∧ nesting depth p = some 0

/-! ## The scan counts parentheses -/

/-- The scan takes one character and goes on with the parentheses that are open then. -/
theorem nesting_cons (depth : Nat) (c : Char) (cs : List Char) :
    nesting depth (c :: cs) = (nesting depth [c]).bind (nesting · cs) := by
  by_cases ho : c = '('
  · simp [nesting, ho]
  · by_cases hc : c = ')'
    · subst hc
      cases depth <;> simp [nesting]
    · simp [nesting, ho, hc]

theorem nesting_append (depth : Nat) (xs ys : List Char) :
    nesting depth (xs ++ ys) = (nesting depth xs).bind (nesting · ys) := by
  induction xs generalizing depth with
  | nil => rfl
  | cons c xs ih =>
    rw [List.cons_append, nesting_cons, nesting_cons depth c xs, Option.bind_assoc]
    congr 1
    funext k
    exact ih k

/-- One character opens a parenthesis, closes one that is open, or leaves the count alone. -/
theorem nesting_singleton_iff {depth k : Nat} {c : Char} :
    nesting depth [c] = some k ↔
      [c].count ')' ≤ depth + [c].count '(' ∧ depth + [c].count '(' = k + [c].count ')' := by
  by_cases ho : c = '('
  · subst ho
    simp [nesting, eq_comm]
  · by_cases hc : c = ')'
    · subst hc
      cases depth with
      | zero => simp [nesting]
      | succ d => simp [nesting]
    · simp [nesting, ho, hc]

/-- The scan succeeds exactly if no prefix closes more than is open, and it ends with what is left
open. -/
theorem nesting_eq_some_iff {depth k : Nat} {cs : List Char} :
    nesting depth cs = some k ↔
      (∀ p, p <+: cs → p.count ')' ≤ depth + p.count '(') ∧
        depth + cs.count '(' = k + cs.count ')' := by
  induction cs generalizing depth with
  | nil => simp [nesting]
  | cons c cs ih =>
    rw [nesting_cons, Option.bind_eq_some_iff]
    have count_cons : ∀ (x : Char) (l : List Char), (c :: l).count x = [c].count x + l.count x :=
      fun _ l => (List.count_append : ([c] ++ l).count _ = _)
    constructor
    · rintro ⟨j, hj, hk⟩
      obtain ⟨hle, heq⟩ := nesting_singleton_iff.1 hj
      obtain ⟨hpre, hend⟩ := ih.1 hk
      refine ⟨fun p hp => ?_, ?_⟩
      · rcases List.prefix_cons_iff.1 hp with rfl | ⟨t, rfl, ht⟩
        · simp
        · have := hpre t ht
          rw [count_cons ')' t, count_cons '(' t]
          omega
      · rw [count_cons ')' cs, count_cons '(' cs]
        omega
    · rintro ⟨hpre, hend⟩
      have hle : [c].count ')' ≤ depth + [c].count '(' :=
        hpre [c] (List.prefix_cons_iff.2 (.inr ⟨[], rfl, List.nil_prefix⟩))
      rw [count_cons ')' cs, count_cons '(' cs] at hend
      refine ⟨depth + [c].count '(' - [c].count ')', nesting_singleton_iff.2 ⟨hle, by omega⟩,
        ih.2 ⟨fun p hp => ?_, by omega⟩⟩
      have := hpre (c :: p) (List.prefix_cons_iff.2 (.inr ⟨p, rfl, hp⟩))
      rw [count_cons ')' p, count_cons '(' p] at this
      omega

theorem nesting_zero_iff {cs : List Char} : nesting 0 cs = some 0 ↔ Balanced cs := by
  rw [nesting_eq_some_iff]
  constructor
  · rintro ⟨hpre, hend⟩
    exact ⟨fun p hp => by simpa using hpre p hp, by simpa using hend⟩
  · rintro ⟨hpre, hend⟩
    exact ⟨fun p hp => by simpa using hpre p hp, by simpa using hend⟩

theorem balanced_iff {cs : List Char} : balanced cs = true ↔ Balanced cs := by
  rw [balanced, decide_eq_true_iff, nesting_zero_iff]

/-! ## Balanced texts -/

theorem Balanced.nil : Balanced [] := nesting_zero_iff.1 rfl

/-- A balanced text does not change what is open. -/
theorem Balanced.nesting_eq {cs : List Char} (h : Balanced cs) (depth : Nat) :
    nesting depth cs = some depth := by
  refine nesting_eq_some_iff.2 ⟨fun p hp => ?_, ?_⟩
  · have := h.never_below p hp
    omega
  · rw [h.closed]

theorem Balanced.append {a b : List Char} (ha : Balanced a) (hb : Balanced b) :
    Balanced (a ++ b) := by
  rw [← nesting_zero_iff, nesting_append, ha.nesting_eq, Option.bind_some, hb.nesting_eq]

/-- What follows a balanced beginning of a balanced text is balanced. -/
theorem Balanced.of_append {a b : List Char} (h : Balanced (a ++ b)) (ha : Balanced a) :
    Balanced b := by
  rw [← nesting_zero_iff, nesting_append, ha.nesting_eq, Option.bind_some] at h
  exact nesting_zero_iff.1 h

theorem balanced_of_no_parenthesis {cs : List Char} (ho : '(' ∉ cs) (hc : ')' ∉ cs) :
    Balanced cs := by
  refine ⟨fun p hp => ?_, ?_⟩
  · rw [List.count_eq_zero_of_not_mem fun hm => hc (hp.subset hm)]
    exact Nat.zero_le _
  · rw [List.count_eq_zero_of_not_mem ho, List.count_eq_zero_of_not_mem hc]

theorem balanced_negation : Balanced ['!'] :=
  balanced_of_no_parenthesis (by decide) (by decide)

theorem balanced_space : Balanced [' '] :=
  balanced_of_no_parenthesis (by decide) (by decide)

theorem Spaces.nil : Spaces [] := fun _ hc => absurd hc List.not_mem_nil

theorem Spaces.single : Spaces [' '] := fun _ hc => List.mem_singleton.1 hc

theorem Spaces.append {a b : List Char} (ha : Spaces a) (hb : Spaces b) : Spaces (a ++ b) := by
  intro c hc
  exact (List.mem_append.1 hc).elim (ha c) (hb c)

theorem Spaces.exists_cons {a : List Char} (h : Spaces a) (hne : a ≠ []) :
    ∃ b, a = ' ' :: b ∧ Spaces b := by
  obtain ⟨c, b, rfl⟩ := List.exists_cons_of_ne_nil hne
  obtain rfl : c = ' ' := h c List.mem_cons_self
  exact ⟨b, rfl, fun d hd => h d (List.mem_cons_of_mem _ hd)⟩

theorem Spaces.balanced {cs : List Char} (h : Spaces cs) : Balanced cs :=
  balanced_of_no_parenthesis (fun hm => absurd (h _ hm) (by decide))
    (fun hm => absurd (h _ hm) (by decide))

theorem Balanced.wrap {cs : List Char} (h : Balanced cs) : Balanced ('(' :: (cs ++ [')'])) := by
  rw [← nesting_zero_iff, nesting_cons, show nesting 0 ['('] = some 1 from rfl, Option.bind_some,
    nesting_append, h.nesting_eq]
  rfl

/-! ## Outer spaces -/

theorem outerSpace_iff_spacedAt {cs : List Char} : OuterSpace cs ↔ SpacedAt 0 cs := by
  simp only [OuterSpace, SpacedAt, nesting_zero_iff]

theorem OuterSpace.mem {cs : List Char} (h : OuterSpace cs) : ' ' ∈ cs := by
  obtain ⟨p, s, rfl, -⟩ := h
  simp

theorem not_spacedAt_nil (depth : Nat) : ¬ SpacedAt depth [] := by
  rintro ⟨p, s, h, -⟩
  simp at h

theorem spacedAt_cons {depth : Nat} {c : Char} {cs : List Char} :
    SpacedAt depth (c :: cs) ↔
      (c = ' ' ∧ depth = 0) ∨ ∃ k, nesting depth [c] = some k ∧ SpacedAt k cs := by
  constructor
  · rintro ⟨p, s, h, hp⟩
    cases p with
    | nil =>
      obtain ⟨rfl, rfl⟩ := List.cons.inj h
      exact .inl ⟨rfl, by simpa [nesting] using hp⟩
    | cons d p =>
      obtain ⟨rfl, rfl⟩ := List.cons.inj h
      rw [nesting_cons, Option.bind_eq_some_iff] at hp
      obtain ⟨k, hk, hp⟩ := hp
      exact .inr ⟨k, hk, p, s, rfl, hp⟩
  · rintro (⟨rfl, rfl⟩ | ⟨k, hk, p, s, rfl, hp⟩)
    · exact ⟨[], cs, rfl, rfl⟩
    · exact ⟨c :: p, s, rfl, by rw [nesting_cons, hk, Option.bind_some, hp]⟩

/-- Behind a character that is no such space, the count goes on with what is open then. -/
theorem spacedAt_cons_of_nesting {depth k : Nat} {c : Char} {cs : List Char}
    (hs : ¬ (c = ' ' ∧ depth = 0)) (hk : nesting depth [c] = some k) :
    SpacedAt depth (c :: cs) ↔ SpacedAt k cs := by
  rw [spacedAt_cons]
  constructor
  · rintro (h | ⟨j, hj, h⟩)
    · exact absurd h hs
    · obtain rfl : j = k := Option.some.inj (hj.symm.trans hk)
      exact h
  · intro h
    exact .inr ⟨k, hk, h⟩

/-- A space is an outer one behind `!` if it is one in the operand. -/
theorem outerSpace_negation_iff {cs : List Char} : OuterSpace ('!' :: cs) ↔ OuterSpace cs := by
  constructor
  · rintro ⟨p, s, hps, hp⟩
    cases p with
    | nil => exact absurd (List.cons.inj hps).1 (by decide)
    | cons c p =>
      obtain ⟨rfl, rfl⟩ := List.cons.inj hps
      exact ⟨p, s, rfl, hp.of_append (a := ['!']) balanced_negation⟩
  · rintro ⟨p, s, rfl, hp⟩
    exact ⟨'!' :: p, s, rfl, balanced_negation.append hp⟩

/-- Between parentheses that enclose all of a balanced text there is no outer space: before the
closing one, the opening one is still open. -/
theorem not_outerSpace_wrap {cs : List Char} (h : Balanced cs) :
    ¬ OuterSpace ('(' :: (cs ++ [')'])) := by
  rintro ⟨p, s, hps, hp⟩
  cases p with
  | nil => exact absurd (List.cons.inj hps).1 (by decide)
  | cons c p =>
    obtain ⟨rfl, hrest⟩ := List.cons.inj hps
    have hbelow : p.count ')' ≤ p.count '(' := by
      rcases List.append_eq_append_iff.1 hrest with ⟨z, rfl, hz⟩ | ⟨z, rfl, hz⟩
      · -- The space would have to stand behind the closing parenthesis.
        cases z with
        | nil => exact h.never_below _ (by simp)
        | cons d z => simp at hz
      · exact h.never_below p (List.prefix_append p z)
    have hclosed := hp.closed
    simp at hclosed
    omega

theorem Balanced.token_wrap {cs : List Char} (h : Balanced cs) : Token ('(' :: (cs ++ [')'])) :=
  ⟨List.cons_ne_nil _ _, h.wrap, not_outerSpace_wrap h⟩

theorem token_negation_iff {cs : List Char} :
    Token ('!' :: cs) ↔ Balanced cs ∧ ¬ OuterSpace cs := by
  rw [← outerSpace_negation_iff]
  constructor
  · intro h
    exact ⟨h.balanced.of_append (a := ['!']) balanced_negation, h.no_outerSpace⟩
  · rintro ⟨hb, hs⟩
    exact ⟨List.cons_ne_nil _ _, balanced_negation.append hb, hs⟩

theorem Token.head_ne_space {c : Char} {cs : List Char} (h : Token (c :: cs)) : c ≠ ' ' := by
  rintro rfl
  exact h.no_outerSpace ⟨[], cs, rfl, Balanced.nil⟩

end LicenseAudit.Expr
