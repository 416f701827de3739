import LicenseAudit.Proofs.Expr.Names

/-!
# First occurrences of names

The names of an expression are collected in one list that goes through the left operand and then
through the right one, and a name may be found again on either side. What stays in the list can be
said by the positions of the literals. They are ordered from left to right, so each name has a first
one, and the names stand in the order of their first positions.

Results:
1. `boolSpelling?_eq_none_iff`: the texts that are no constants.
2. `mem_leaves_iff`, `leaves_pairwise`: the literals with their positions, from left to right.
3. `map_leaves`: the texts of these literals are `literals`.
4. `names_occurrences`: which names an expression has, and in which order.
-/

namespace LicenseAudit.Expr

/-! ## Definitions -/

/-- The literals with their positions, from left to right. -/
def leaves : Expr → List (List Step × String)
  | literal text => [([], text)]
  | not e => (leaves e).map (Prod.map (.negation :: ·) id)
  | and l r =>
    (leaves l).map (Prod.map (.left :: ·) id) ++ (leaves r).map (Prod.map (.right :: ·) id)
  | or l r =>
    (leaves l).map (Prod.map (.left :: ·) id) ++ (leaves r).map (Prod.map (.right :: ·) id)

/-- One literal with the first text is left of all literals with the second one. -/
def OccursBefore (e : Expr) (first second : String) : Prop :=
  ∃ p, at? p e = some (literal first) ∧ ∀ q, at? q e = some (literal second) → LeftOf p q

/-- The text is a word for a constant or its short form, whatever the case of its ASCII letters. -/
def SpellsConstant (text : String) : Prop :=
  text.toLower ∈ ["true", "t", "1", "false", "f", "0"]

instance : DecidablePred SpellsConstant := fun _ => inferInstanceAs (Decidable (_ ∈ _))

/-! ## Constants -/

theorem boolSpelling?_eq_none_iff {text : String} :
    boolSpelling? text = none ↔ ¬ SpellsConstant text := by
  have htext : text.toLower.toList = text.toList.map Char.toLower := String.toList_map
  have hlower (word : String) :
      text.toLower = word ↔ text.toList.map Char.toLower = word.toList := by
    rw [← String.toList_inj, htext]
  simp only [SpellsConstant, List.mem_cons, List.not_mem_nil, or_false, hlower]
  unfold boolSpelling?
  generalize text.toList.map Char.toLower = lower
  simp only [String.reduceToList]
  grind

theorem named_eq (e : Expr) : e.named = e.literals.filter (¬ SpellsConstant ·) := by
  refine List.filter_congr fun text _ => ?_
  rw [Bool.eq_iff_iff, Option.isNone_iff_eq_none, boolSpelling?_eq_none_iff, decide_eq_true_iff]

/-! ## Literals and positions -/

theorem mem_map_step_iff {leaves : List (List Step × String)} {s : Step} {p : List Step}
    {text : String} :
    (p, text) ∈ leaves.map (Prod.map (s :: ·) id) ↔ ∃ q, p = s :: q ∧ (q, text) ∈ leaves := by
  rw [List.mem_map]
  constructor
  · rintro ⟨⟨q, other⟩, hmem, heq⟩
    obtain ⟨rfl, rfl⟩ := Prod.mk.inj heq
    exact ⟨q, rfl, hmem⟩
  · rintro ⟨q, rfl, hmem⟩
    exact ⟨(q, text), hmem, rfl⟩

theorem mem_leaves_iff {e : Expr} {p : List Step} {text : String} :
    (p, text) ∈ e.leaves ↔ at? p e = some (literal text) := by
  induction e generalizing p with
  | literal other => cases p <;> simp [leaves, at?, operand?, eq_comm]
  | not e ih =>
    rw [leaves, mem_map_step_iff]
    cases p with
    | nil => simp [at?]
    | cons s p => cases s <;> simp [at?, operand?, ih]
  | and l r ihl ihr | or l r ihl ihr =>
    rw [leaves, List.mem_append, mem_map_step_iff, mem_map_step_iff]
    cases p with
    | nil => simp [at?]
    | cons s p => cases s <;> simp [at?, operand?, ihl, ihr]

theorem leaves_pairwise (e : Expr) : e.leaves.Pairwise fun a b => LeftOf a.1 b.1 := by
  have hunder (s : Step) {leaves : List (List Step × String)}
      (h : leaves.Pairwise fun a b => LeftOf a.1 b.1) :
      (leaves.map (Prod.map (s :: ·) id)).Pairwise fun a b => LeftOf a.1 b.1 :=
    List.pairwise_map.2 (h.imp fun hab => hab.under s)
  induction e with
  | literal text => exact List.pairwise_singleton _ _
  | not e ih => exact hunder .negation ih
  | and l r ihl ihr | or l r ihl ihr =>
    refine List.pairwise_append.2 ⟨hunder .left ihl, hunder .right ihr, fun a ha b hb => ?_⟩
    obtain ⟨a, -, rfl⟩ := List.mem_map.1 ha
    obtain ⟨b, -, rfl⟩ := List.mem_map.1 hb
    exact .here

theorem map_leaves (e : Expr) : e.leaves.map Prod.snd = e.literals := by
  have hunder (s : Step) (leaves : List (List Step × String)) :
      (leaves.map (Prod.map (s :: ·) id)).map Prod.snd = leaves.map Prod.snd := by
    rw [List.map_map]
    rfl
  induction e with
  | literal text => rfl
  | not e ih => rw [leaves, hunder, ih, literals]
  | and l r ihl ihr | or l r ihl ihr =>
    rw [leaves, List.map_append, hunder, hunder, ihl, ihr, literals]

theorem mem_literals_iff {e : Expr} {text : String} :
    text ∈ e.literals ↔ ∃ p, at? p e = some (literal text) := by
  rw [← map_leaves, List.mem_map]
  constructor
  · rintro ⟨⟨p, text⟩, hmem, rfl⟩
    exact ⟨p, mem_leaves_iff.1 hmem⟩
  · rintro ⟨p, hat⟩
    exact ⟨(p, text), mem_leaves_iff.2 hat, rfl⟩

/-! ## The names in order -/

theorem OccursBefore.ne {e : Expr} {first second : String} (h : e.OccursBefore first second) :
    first ≠ second := by
  rintro rfl
  obtain ⟨p, hat, hleft⟩ := h
  exact (hleft p hat).asymm (hleft p hat)

theorem names_pairwise (e : Expr) : e.names.Pairwise e.OccursBefore := by
  have hnamed : (e.leaves.filter fun leaf => (boolSpelling? leaf.2).isNone).map Prod.snd =
      e.named := by
    rw [named, ← map_leaves, List.filter_map]
    rfl
  have horder := pairwise_eraseDups ((leaves_pairwise e).filter fun leaf =>
    (boolSpelling? leaf.2).isNone)
  rw [hnamed, ← names_eq] at horder
  refine horder.imp_of_mem fun {first second} _ hsecond hbefore => ?_
  obtain ⟨p, hp, hleft⟩ := hbefore
  have hspelling := (mem_names_iff.1 hsecond).2
  refine ⟨p, mem_leaves_iff.1 (List.mem_filter.1 hp).1, fun q hq => hleft q ?_⟩
  exact List.mem_filter.2 ⟨mem_leaves_iff.2 hq, Option.isNone_iff_eq_none.2 hspelling⟩

/-- The names are the texts of the literals that are no constants. Each stands there once, in the
order of the first occurrences, so they are what is left of these texts without repetitions. -/
theorem names_occurrences (e : Expr) :
    e.names.Nodup ∧
      (∀ name, name ∈ e.names ↔
        (∃ p, at? p e = some (literal name)) ∧ ¬ SpellsConstant name) ∧
      e.names.Pairwise e.OccursBefore ∧
      e.names = (e.literals.filter (¬ SpellsConstant ·)).eraseDups := by
  have hpairwise := names_pairwise e
  refine ⟨hpairwise.imp OccursBefore.ne, fun name => ?_, hpairwise, ?_⟩
  · rw [mem_names_iff, mem_literals_iff, boolSpelling?_eq_none_iff]
  · rw [names_eq, named_eq]

end LicenseAudit.Expr
