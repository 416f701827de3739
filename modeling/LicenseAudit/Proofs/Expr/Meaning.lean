import LicenseAudit.Expr.Eval

/-!
# What an expression means

The meaning of an expression is given by its positions, the paths of steps from the root. A position
fails if it is a literal that stands for nothing, or if it lies on the first level that is too deep.
Evaluation does not look for positions: it evaluates both operands and keeps one error. The list
`failures` ties the two together. It holds the errors of all failing positions, left ones first, and
evaluation returns the first of them.

Results:
1. `evalAt_eq_firstOr`: evaluation returns the first failure, or else the classical value.
2. `mem_failures_iff`: the failures are the failing positions.
3. `failures_pairwise`: they stand in order from left to right.
4. `eval_reference`: the meaning of an expression under any values of its names.
-/

namespace LicenseAudit.Expr

/-! ## Definitions -/

/-- The operand that a step leads to. -/
def operand? : Expr → Step → Option Expr
  | not e, .negation => some e
  | and l _, .left => some l
  | and _ r, .right => some r
  | or l _, .left => some l
  | or _ r, .right => some r
  | _, _ => none

/-- The node at the end of a path from the root. -/
def at? : List Step → Expr → Option Expr
  | [], e => some e
  | s :: p, e => (e.operand? s).bind (at? p)

/-- `Fails value levels e p f`: the position `p` of `e` fails with `f`, when the root is on the first
of `levels` levels.

* `unknown`: a literal on one of these levels is no constant and has no value.
* `deep`: a node of any kind is below the last level. -/
inductive Fails (value : String → Option Bool) (levels : Nat) (e : Expr) :
    List Step → EvalFault → Prop
  | unknown {p : List Step} {text : String} : at? p e = some (literal text) → p.length < levels →
      boolSpelling? text = none → value text = none → Fails value levels e p (.unknownVariable text)
  | deep {p : List Step} {node : Expr} : at? p e = some node → p.length = levels →
      Fails value levels e p (.tooDeep maxDepth)

/-- One position is left of another: where their paths part, the first goes to the left operand and
the second to the right one. -/
inductive LeftOf : List Step → List Step → Prop
  | here {p q : List Step} : LeftOf (.left :: p) (.right :: q)
  | under {p q : List Step} (s : Step) : LeftOf p q → LeftOf (s :: p) (s :: q)

/-- The failing position that all others are right of. -/
def Leftmost (value : String → Option Bool) (levels : Nat) (e : Expr) (p : List Step)
    (f : EvalFault) : Prop :=
  Fails value levels e p f ∧ ∀ q g, Fails value levels e q g → (q = p ∧ g = f) ∨ LeftOf p q

/-- The classical value when every name has one. The spellings of constants come first. -/
def truth (ρ : String → Bool) : Expr → Bool
  | literal text => (boolSpelling? text).getD (ρ text)
  | not e => !truth ρ e
  | and l r => truth ρ l && truth ρ r
  | or l r => truth ρ l || truth ρ r

/-- The values of all names agree with those of the names that have one. -/
def Completes (ρ : String → Bool) (value : String → Option Bool) : Prop :=
  ∀ name b, value name = some b → ρ name = b

/-- The errors of all failing positions, from left to right. -/
def failures (value : String → Option Bool) (levels : Nat) (e : Expr) : List EvalError :=
  match levels with
  | 0 => [.here (.tooDeep maxDepth)]
  | below + 1 =>
    match e with
    | literal text =>
      if boolSpelling? text = none ∧ value text = none then [.here (.unknownVariable text)] else []
    | not e => (failures value below e).map (·.under .negation)
    | and l r =>
      (failures value below l).map (·.under .left) ++ (failures value below r).map (·.under .right)
    | or l r =>
      (failures value below l).map (·.under .left) ++ (failures value below r).map (·.under .right)

/-- The first of some errors, or a value if there are none. -/
def firstOr (errors : List EvalError) (b : Bool) : Except EvalError Bool :=
  match errors with
  | [] => .ok b
  | error :: _ => .error error

/-- Every name without a value can be taken as false. -/
theorem completes_getD (value : String → Option Bool) :
    Completes (fun name => (value name).getD false) value := by
  intro name b h
  simp [h]

/-! ## Evaluation returns the first failure -/

namespace MeaningLemmas

theorem not_firstOr (errors : List EvalError) (b : Bool) :
    ((firstOr errors b).mapError (·.under .negation)).map (! ·) =
      firstOr (errors.map (·.under .negation)) (!b) := by
  cases errors <;> rfl

/-- Both operands are evaluated, and the left error is the one that stays. -/
theorem both_firstOr (ls rs : List EvalError) (a b : Bool) (join : Bool → Bool → Bool) :
    (do
      let x ← (firstOr ls a).mapError (·.under .left)
      let y ← (firstOr rs b).mapError (·.under .right)
      .ok (join x y)) =
      firstOr (ls.map (·.under .left) ++ rs.map (·.under .right)) (join a b) := by
  cases ls with
  | nil => cases rs <;> rfl
  | cons _ _ => rfl

theorem literalValue_eq {ρ : String → Bool} {value : String → Option Bool}
    (hρ : Completes ρ value) (text : String) :
    literalValue value text =
      firstOr (if boolSpelling? text = none ∧ value text = none then
        [.here (.unknownVariable text)] else []) ((boolSpelling? text).getD (ρ text)) := by
  unfold literalValue
  cases boolSpelling? text with
  | some b => simp [firstOr]
  | none =>
    cases hv : value text with
    | some b => simp [firstOr, hρ text b hv]
    | none => simp [firstOr]

end MeaningLemmas

open MeaningLemmas in
theorem evalAt_eq_firstOr {ρ : String → Bool} {value : String → Option Bool}
    (hρ : Completes ρ value) (levels : Nat) (e : Expr) :
    evalAt value levels e = firstOr (failures value levels e) (e.truth ρ) := by
  induction levels generalizing e with
  | zero => rfl
  | succ below ih =>
    cases e with
    | literal text => exact literalValue_eq hρ text
    | not e => rw [evalAt, ih, not_firstOr]; rfl
    | and l r => rw [evalAt, ih, ih, both_firstOr]; rfl
    | or l r => rw [evalAt, ih, ih, both_firstOr]; rfl

/-! ## The failures are the failing positions -/

namespace MeaningLemmas

variable {value : String → Option Bool} {levels : Nat} {e : Expr} {f : EvalFault}

/-- A root above the last level fails only as a literal. -/
theorem fails_nil_iff :
    Fails value (levels + 1) e [] f ↔
      ∃ text, e = literal text ∧ boolSpelling? text = none ∧ value text = none ∧
        f = .unknownVariable text := by
  constructor
  · rintro (⟨hat, -, hs, hv⟩ | ⟨-, hlen⟩)
    · exact ⟨_, Option.some.inj hat, hs, hv, rfl⟩
    · exact absurd hlen (by simp)
  · rintro ⟨text, rfl, hs, hv, rfl⟩
    exact .unknown rfl (Nat.succ_pos levels) hs hv

/-- A position below the root fails as a position of the operand it belongs to. -/
theorem fails_cons_iff {s : Step} {p : List Step} :
    Fails value (levels + 1) e (s :: p) f ↔
      ∃ operand, e.operand? s = some operand ∧ Fails value levels operand p f := by
  constructor
  · rintro (⟨hat, hlen, hs, hv⟩ | ⟨hat, hlen⟩)
    · obtain ⟨operand, hop, hat⟩ := Option.bind_eq_some_iff.1 hat
      exact ⟨operand, hop, .unknown hat (Nat.lt_of_succ_lt_succ hlen) hs hv⟩
    · obtain ⟨operand, hop, hat⟩ := Option.bind_eq_some_iff.1 hat
      exact ⟨operand, hop, .deep hat (Nat.succ.inj hlen)⟩
  · rintro ⟨operand, hop, ⟨hat, hlen, hs, hv⟩ | ⟨hat, hlen⟩⟩
    · exact .unknown (Option.bind_eq_some_iff.2 ⟨operand, hop, hat⟩) (Nat.succ_lt_succ hlen) hs hv
    · exact .deep (Option.bind_eq_some_iff.2 ⟨operand, hop, hat⟩) (congrArg Nat.succ hlen)

theorem mem_map_under_iff {errors : List EvalError} {s : Step} {p : List Step} :
    ⟨p, f⟩ ∈ errors.map (Located.under s) ↔ ∃ q, p = s :: q ∧ ⟨q, f⟩ ∈ errors := by
  rw [List.mem_map]
  constructor
  · rintro ⟨⟨q, g⟩, hmem, heq⟩
    obtain ⟨rfl, rfl⟩ := Located.mk.inj heq
    exact ⟨q, rfl, hmem⟩
  · rintro ⟨q, rfl, hmem⟩
    exact ⟨⟨q, f⟩, hmem, rfl⟩

end MeaningLemmas

open MeaningLemmas in
theorem mem_failures_iff {value : String → Option Bool} {levels : Nat} {e : Expr} {p : List Step}
    {f : EvalFault} : ⟨p, f⟩ ∈ failures value levels e ↔ Fails value levels e p f := by
  induction levels generalizing e p with
  | zero =>
    constructor
    · intro h
      obtain ⟨rfl, rfl⟩ := Located.mk.inj (List.mem_singleton.1 h)
      exact .deep rfl rfl
    · rintro (⟨-, hlen, -, -⟩ | ⟨-, hlen⟩)
      · exact absurd hlen (Nat.not_lt_zero _)
      · obtain rfl := List.length_eq_zero_iff.1 hlen
        exact List.mem_singleton.2 rfl
  | succ below ih =>
    cases e with
    | literal text =>
      rw [failures]
      cases p with
      | nil =>
        rw [fails_nil_iff]
        constructor
        · intro h
          split at h
          · next hc =>
            obtain ⟨-, rfl⟩ := Located.mk.inj (List.mem_singleton.1 h)
            exact ⟨text, rfl, hc.1, hc.2, rfl⟩
          · exact absurd h List.not_mem_nil
        · rintro ⟨_, heq, hs, hv, rfl⟩
          obtain rfl := literal.inj heq
          rw [if_pos ⟨hs, hv⟩]
          exact List.mem_singleton.2 rfl
      | cons s p =>
        rw [fails_cons_iff]
        split <;> simp [Located.here, operand?]
    | not e =>
      rw [failures, mem_map_under_iff]
      cases p with
      | nil => simp [fails_nil_iff]
      | cons s p =>
        rw [fails_cons_iff]
        cases s <;> simp [operand?, ih]
    | and l r | or l r =>
      rw [failures, List.mem_append, mem_map_under_iff, mem_map_under_iff]
      cases p with
      | nil => simp [fails_nil_iff]
      | cons s p =>
        rw [fails_cons_iff]
        cases s <;> simp [operand?, ih]

/-! ## From left to right -/

theorem LeftOf.asymm {p q : List Step} (h : LeftOf p q) : ¬ LeftOf q p := by
  induction h with
  | here =>
    intro h
    cases h
  | under s _ ih =>
    rintro (_ | ⟨_, h⟩)
    exact ih h

theorem failures_pairwise (value : String → Option Bool) (levels : Nat) (e : Expr) :
    (failures value levels e).Pairwise fun a b => LeftOf a.path b.path := by
  induction levels generalizing e with
  | zero => exact List.pairwise_singleton _ _
  | succ below ih =>
    have hunder : ∀ s e, ((failures value below e).map (Located.under s)).Pairwise
        fun a b => LeftOf a.path b.path :=
      fun s e => List.pairwise_map.2 ((ih e).imp (LeftOf.under s))
    cases e with
    | literal text =>
      rw [failures]
      split
      · exact List.pairwise_singleton _ _
      · exact List.Pairwise.nil
    | not e => exact hunder .negation e
    | and l r | or l r =>
      refine List.pairwise_append.2 ⟨hunder .left l, hunder .right r, fun a ha b hb => ?_⟩
      obtain ⟨a, -, rfl⟩ := List.mem_map.1 ha
      obtain ⟨b, -, rfl⟩ := List.mem_map.1 hb
      exact .here

/-- The first failure is the leftmost one. -/
theorem leftmost_of_failures {value : String → Option Bool} {levels : Nat} {e : Expr}
    {first : EvalError} {rest : List EvalError} (h : failures value levels e = first :: rest) :
    Leftmost value levels e first.path first.fault := by
  refine ⟨mem_failures_iff.1 (h ▸ List.mem_cons_self), fun q g hq => ?_⟩
  have hmem : ⟨q, g⟩ ∈ first :: rest := h ▸ mem_failures_iff.2 hq
  rcases List.mem_cons.1 hmem with heq | hmem
  · exact .inl ⟨congrArg Located.path heq, congrArg Located.fault heq⟩
  · have hpair := failures_pairwise value levels e
    rw [h] at hpair
    exact .inr ((List.pairwise_cons.1 hpair).1 _ hmem)

theorem Leftmost.unique {value : String → Option Bool} {levels : Nat} {e : Expr} {p q : List Step}
    {f g : EvalFault} (hp : Leftmost value levels e p f) (hq : Leftmost value levels e q g) :
    p = q ∧ f = g := by
  rcases hp.2 q g hq.1 with ⟨rfl, rfl⟩ | hpq
  · exact ⟨rfl, rfl⟩
  · rcases hq.2 p f hp.1 with h | hqp
    · exact h
    · exact absurd hqp hpq.asymm

/-! ## The meaning of an expression -/

/-- If no position fails, an expression has its classical value. If one does, there is a leftmost one,
and its fault is the error, with the path from the root to it. -/
theorem eval_reference (value : String → Option Bool) (e : Expr) :
    ((∀ p f, ¬ Fails value (maxDepth + 1) e p f) →
        ∀ ρ, Completes ρ value → eval value e = .ok (e.truth ρ)) ∧
      ((∃ p f, Fails value (maxDepth + 1) e p f) →
        ∃ p f, Leftmost value (maxDepth + 1) e p f) ∧
      ∀ p f, Leftmost value (maxDepth + 1) e p f → eval value e = .error ⟨p, f⟩ := by
  cases hfs : failures value (maxDepth + 1) e with
  | nil =>
    have hno : ∀ p f, ¬ Fails value (maxDepth + 1) e p f := fun p f hp => by
      have := mem_failures_iff.2 hp
      rw [hfs] at this
      exact absurd this List.not_mem_nil
    refine ⟨fun _ ρ hρ => ?_, fun ⟨p, f, hp⟩ => absurd hp (hno p f),
      fun p f hp => absurd hp.1 (hno p f)⟩
    rw [eval, evalAt_eq_firstOr hρ, hfs, firstOr]
  | cons first rest =>
    have hfirst := leftmost_of_failures hfs
    refine ⟨fun hno => absurd hfirst.1 (hno _ _), fun _ => ⟨_, _, hfirst⟩, fun p f hp => ?_⟩
    obtain ⟨rfl, rfl⟩ := hp.unique hfirst
    have hρ : Completes (fun name => (value name).getD false) value := fun name b h => by simp [h]
    rw [eval, evalAt_eq_firstOr hρ, hfs, firstOr]

end LicenseAudit.Expr
